import LolToolchain.Bytecode.Opcode
import LolToolchain.Bytecode.Pool
import LolToolchain.Source.Span

/-!
Chunks: compiled programs. A chunk holds code bytes, one span per byte, constants and the names of
the program. Operand bytes carry the span of their operation. Numbers of three bytes are written
with the high byte first; jumps are relative to their operand, signed, with the low byte first.
-/
namespace LolToolchain

/-- A compiled program. `coded` tells an empty code from one that was never begun; the two are
stored differently. -/
structure Chunk where
  code : Array UInt8
  coded : Bool
  positions : Array Span
  pool : Pool
  names : List Text
  deriving DecidableEq, Repr, Inhabited

/-- An operand that three bytes cannot hold. -/
structure OperandFault where
  operand : Int
  deriving DecidableEq, Repr, Inhabited

def OperandFault.message (f : OperandFault) : Text :=
  "operand " ++ Text.ofInt f.operand ++ " does not fit in 24 bits"

namespace Chunk

def empty : Chunk := ⟨#[], true, #[], .empty, []⟩

def blank : Chunk := ⟨#[], false, #[], .unindexed, []⟩

def maxShort : Nat := 0xFF

def maxLong : Nat := 0xFFFFFF

def u24Bytes (n : Int) : List UInt8 :=
  let m := (n % 0x1000000).toNat
  [(m / 0x10000).toUInt8, (m / 0x100).toUInt8, m.toUInt8]

def i32Bytes (n : Int) : List UInt8 :=
  let m := (n % 0x100000000).toNat
  [m.toUInt8, (m / 0x100).toUInt8, (m / 0x10000).toUInt8, (m / 0x1000000).toUInt8]

/-- Appends bytes without spans. -/
def appendRaw (c : Chunk) (bytes : List UInt8) : Chunk :=
  { c with code := c.code ++ bytes, coded := c.coded || !bytes.isEmpty }

def emitByte (c : Chunk) (op : UInt8) (operand : List UInt8) (span : Span) : Chunk :=
  { c with
    code := c.code.push op ++ operand
    coded := true
    positions := c.positions ++ List.replicate (operand.length + 1) span }

def emit (c : Chunk) (op : Opcode) (operand : List UInt8) (span : Span) : Chunk :=
  c.emitByte op.byte operand span

def emitIndexedByte (c : Chunk) (short long : UInt8) (n : Int) (span : Span) :
    Except OperandFault Chunk :=
  if n < 0 ∨ (maxLong : Int) < n then .error ⟨n⟩
  else if n ≤ (maxShort : Int) then .ok (c.emitByte short [n.toNat.toUInt8] span)
  else .ok (c.emitByte long (u24Bytes n) span)

def emitIndexed (c : Chunk) (short long : Opcode) (n : Nat) (span : Span) :
    Except OperandFault Chunk :=
  c.emitIndexedByte short.byte long.byte n span

/-- Appends a jump whose target is still open, and gives the place of its operand. -/
def emitJump (c : Chunk) (op : Opcode) (span : Span) : Nat × Chunk :=
  (c.code.size + 1, c.emit op [0xFF, 0xFF, 0xFF, 0xFF] span)

/-- Overwrites bytes from an offset on; what lies outside the code is left. -/
def overwrite (code : Array UInt8) (offset : Nat) : List UInt8 → Array UInt8
  | [] => code
  | b :: bs => overwrite (code.setIfInBounds offset b) (offset + 1) bs

/-- Sets the target of the jump whose operand is at an offset. -/
def patchTo (c : Chunk) (offset : Nat) (target : Int) : Chunk :=
  { c with code := overwrite c.code offset (i32Bytes (target - offset)) }

def patch (c : Chunk) (offset : Nat) : Chunk :=
  c.patchTo offset c.code.size

def emitLoop (c : Chunk) (start : Int) (span : Span) : Chunk :=
  let (operand, c) := c.emitJump .jump span
  c.patchTo operand start

def holds (c : Chunk) (offset : Int) (n : Nat) : Bool :=
  0 ≤ offset && offset + n ≤ c.code.size

/-- The span recorded for a code offset; without a record it is empty. -/
def spanAt (c : Chunk) (offset : Int) : Span :=
  if offset < 0 then .zero else c.positions.getD offset.toNat .zero

/-- A list with equal neighbours put together: how many they are, and what. -/
def runsOf {α : Type} [DecidableEq α] : List α → List (Nat × α)
  | [] => []
  | x :: xs =>
    match runsOf xs with
    | (n, y) :: runs => if x = y then (n + 1, y) :: runs else (1, x) :: (n, y) :: runs
    | [] => [(1, x)]

def positionRuns (c : Chunk) : List (Nat × Span) :=
  runsOf c.positions.toList

def ofParts (code : List UInt8) (positions : List Span) (constants : List Value) : Chunk :=
  { blank with
    code := code.toArray
    coded := true
    positions := positions.toArray
    pool := constants.foldl (fun p v => p.push { value := v }) .unindexed }

def byteAt (c : Chunk) (offset : Nat) : UInt8 :=
  c.code.getD offset 0

def readU24 (c : Chunk) (offset : Nat) : Nat :=
  (c.byteAt offset).toNat * 0x10000 + (c.byteAt (offset + 1)).toNat * 0x100
    + (c.byteAt (offset + 2)).toNat

def readJump (c : Chunk) (offset : Nat) : Int :=
  let n : Nat := (c.byteAt offset).toNat + (c.byteAt (offset + 1)).toNat * 0x100
    + (c.byteAt (offset + 2)).toNat * 0x10000 + (c.byteAt (offset + 3)).toNat * 0x1000000
  offset + (if n < 0x80000000 then (n : Int) else n - 0x100000000)

end Chunk

inductive FetchFault where
  | outside
  | invalid (byte : UInt8)
  | truncated (op : Opcode)
  deriving DecidableEq, Repr, Inhabited

/-- An instruction: its operation, and the number in its operand, which is 0 for jumps and for
operations without one. -/
structure Instruction where
  op : Opcode
  arg : Nat
  deriving DecidableEq, Repr, Inhabited

def Chunk.fetch (c : Chunk) (offset : Int) : Except FetchFault Instruction :=
  if offset < 0 then .error .outside
  else
    let o := offset.toNat
    match c.code[o]? with
    | none => .error .outside
    | some b =>
      match Opcode.ofByte? b with
      | none => .error (.invalid b)
      | some op =>
        if c.code.size < o + op.length then .error (.truncated op)
        else
          let arg := match op.operandLength with
            | 1 => (c.byteAt (o + 1)).toNat
            | 3 => c.readU24 (o + 1)
            | _ => 0
          .ok ⟨op, arg⟩

inductive ChunkFault where
  | positionCount (code positions : Nat)
  | unknownKind (place : Nat) (kind : UInt8)
  | noTemplate (place : Nat)
  | misplacedSplice (place : Nat) (offset : Int)
  | listConstant (place : Nat)
  deriving DecidableEq, Repr, Inhabited

def ChunkFault.message : ChunkFault → Text
  | .positionCount code positions =>
    "chunk has " ++ Text.ofNat code ++ " code bytes but " ++ Text.ofNat positions ++ " positions"
  | .unknownKind i k =>
    "constant " ++ Text.ofNat i ++ " has unknown kind " ++ Text.ofNat k.toNat
  | .noTemplate i => "constant " ++ Text.ofNat i ++ " is an interpolation without a template"
  | .misplacedSplice i off =>
    "constant " ++ Text.ofNat i ++ " has splice offset " ++ Text.ofInt off ++ " out of order"
  | .listConstant i =>
    "constant " ++ Text.ofNat i ++ " is a list; lists are built at run time"

namespace Chunk

def constantFault? (place : Nat) : Value → Option ChunkFault
  | .unknown k => some (.unknownKind place k)
  | .interp none => some (.noTemplate place)
  | .interp (some t) => t.misplaced?.map (.misplacedSplice place)
  | .bukkit _ => some (.listConstant place)
  | _ => none

def constantsFault? (place : Nat) : List Constant → Option ChunkFault
  | [] => none
  | c :: cs =>
    match constantFault? place c.value with
    | some f => some f
    | none => constantsFault? (place + 1) cs

/-- The first thing wrong with the shape of a chunk. -/
def fault? (c : Chunk) : Option ChunkFault :=
  if c.positions.size ≠ c.code.size then
    some (.positionCount c.code.size c.positions.size)
  else constantsFault? 0 c.pool.constants.toList

end Chunk
end LolToolchain
