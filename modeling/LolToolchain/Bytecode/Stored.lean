import LolToolchain.Bytecode.Listing
import LolToolchain.Cbor.Decode
import LolToolchain.Numbar.Arithmetic
import LolToolchain.Text.Glyph

/-!
Stored chunks: four marker bytes, the version of the format, and a map with the code, the spans,
the constants and the names. Fields with their zero value are left out of constants, and read back
as that value; of two entries with the same key the first counts.
-/
namespace LolToolchain

inductive LoadFault where
  | notChunk
  | version (n : Nat)
  | unreadable
  | invalid (fault : ChunkFault)
  deriving DecidableEq, Repr, Inhabited

def LoadFault.message : LoadFault → Text
  | .notChunk => "bytecode: not a compiled LOLCODE chunk"
  | .version n =>
    "bytecode: format version " ++ Text.ofNat n ++ ", want " ++ Text.ofNat formatVersion
  | .unreadable => "bytecode: unmarshal chunk"
  | .invalid f => "bytecode: " ++ f.message

namespace Cbor

/-- What may follow a tag: a text after 0, a number after 1, bytes after 2 and 3. -/
def fitsTag (n : Nat) (item : Cbor) : Bool :=
  match n, item with
  | 0, .text _ => true
  | 0, _ => false
  | 1, .nat _ | 1, .neg _ | 1, .float _ => true
  | 1, _ => false
  | 2, .bytes _ | 3, .bytes _ => true
  | 2, _ | 3, _ => false
  | _, _ => true

/-- The item without tags that say nothing about its value. Tags 2 and 3 mark large numbers. -/
def untag? : Cbor → Option Cbor
  | .tag n x =>
    if !fitsTag n x then none
    else if n = 2 ∨ n = 3 then some (.tag n x)
    else untag? x
  | x => some x

def isNull : Cbor → Bool
  | .simple n => n == 22 || n == 23
  | _ => false

def negative? (n : Nat) : Option Int :=
  if n < 0x8000000000000000 then some (-1 - (n : Int)) else none

/-- The whole number of an item that is neither a truth value nor absent. -/
def whole? : Cbor → Option Int
  | .nat n => some n
  | .neg n => negative? n
  | .simple n => if n = 20 ∨ n = 21 then none else some n
  | .tag 2 (.bytes b) => let n := ofBigEndian b; if n < 0x10000000000000000 then some n else none
  | .tag 3 (.bytes b) => negative? (ofBigEndian b)
  | _ => none

/-- Reads a tagged or absent item with a reader for plain ones. -/
def valueOr? {α : Type} (zero : α) (read : Cbor → Option α) (x : Cbor) : Option α := do
  let x ← untag? x
  if isNull x then some zero else read x

def intIn? (low high : Int) (x : Cbor) : Option Int :=
  valueOr? 0 (fun x => (whole? x).filter fun n => low ≤ n ∧ n ≤ high) x

def int64? (x : Cbor) : Option Int :=
  intIn? Numbr.least Numbr.greatest x

def byte? (x : Cbor) : Option UInt8 :=
  (intIn? 0 255 x).map fun n => n.toNat.toUInt8

def bool? (x : Cbor) : Option Bool :=
  valueOr? false (fun
    | .simple 20 => some false
    | .simple 21 => some true
    | _ => none) x

def float? (x : Cbor) : Option Numbar :=
  valueOr? Numbar.zero (fun
    | .float x => some x
    | x => (whole? x).map Numbar.ofInt) x

/-- A text; each of its pieces has to be well-formed. -/
def string? (x : Cbor) : Option Text :=
  valueOr? [] (fun
    | .text pieces => if pieces.all Text.isUtf8 then some pieces.flatten else none
    | _ => none) x

def list? {α : Type} (read : Cbor → Option α) (x : Cbor) : Option (List α) :=
  valueOr? [] (fun
    | .array xs => xs.mapM read
    | _ => none) x

/-- Bytes, as a byte string or as a list of numbers; `none` inside if they are absent. -/
def code? (x : Cbor) : Option (Option Text) :=
  valueOr? none (fun
    | .bytes b => some (some b)
    | .tag _ (.bytes b) => some (some b)
    | .array xs => (xs.mapM byte?).map some
    | _ => none) x

/-- The number of a field that a key names, as a number or in decimal; 0 names none. Other keys
than numbers and texts are refused, and so are negative numbers out of range. -/
def fieldNumber? : Cbor → Option Nat
  | .nat n => some n
  | .neg n => (negative? n).map fun _ => 0
  | .text pieces =>
    if pieces.all Text.isUtf8 then
      some (((List.range 10).find? fun n => Text.ofNat n == pieces.flatten).getD 0)
    else none
  | _ => none

def fields? (x : Cbor) : Option (List (Nat × Cbor)) :=
  valueOr? [] (fun
    | .map es => es.mapM fun (k, v) => (fieldNumber? k).map fun n => (n, v)
    | _ => none) x

/-- The value of a field, which is zero if the map does not have it. -/
def field? {α : Type} (fields : List (Nat × Cbor)) (n : Nat) (zero : α)
    (read : Cbor → Option α) : Option α :=
  match fields.lookup n with
  | none => some zero
  | some x => read x

end Cbor

namespace Span

def toCbor (s : Span) : Cbor :=
  .array [.ofInt s.start, .ofInt s.stop, .ofInt s.file]

def ofCbor? (x : Cbor) : Option Span :=
  Cbor.valueOr? zero (fun
    | .array [a, b, c] => do return ⟨← Cbor.int64? a, ← Cbor.int64? b, ← Cbor.int64? c⟩
    | _ => none) x

end Span

structure StoredConstant where
  kind : UInt8
  troof : Bool
  numbr : Int64
  numbar : Numbar
  yarn : Text
  offsets : List Int
  deriving DecidableEq, Repr, Inhabited

namespace StoredConstant

def ofConstant (c : Constant) : StoredConstant :=
  let s := c.spare
  let base : StoredConstant := ⟨c.value.kindCode, s.troof, s.numbr, s.numbar, s.yarn, []⟩
  match c.value with
  | .troof b => { base with troof := b }
  | .numbr n => { base with numbr := n }
  | .numbar x => { base with numbar := x }
  | .yarn t => { base with yarn := t }
  | .interp (some t) => { base with yarn := t.text, offsets := t.offsets }
  | .funkshon n => { base with numbr := n }
  | _ => base

/-- The constant of stored fields. A list that was stored leads nowhere. -/
def toConstant (s : StoredConstant) : Constant :=
  let spare : Spare := ⟨s.troof, s.numbr, s.numbar, s.yarn⟩
  match s.kind with
  | 0 => ⟨.noob, spare⟩
  | 1 => ⟨.troof s.troof, { spare with troof := false }⟩
  | 2 => ⟨.numbr s.numbr, { spare with numbr := 0 }⟩
  | 3 => ⟨.numbar s.numbar, { spare with numbar := .zero }⟩
  | 4 => ⟨.yarn s.yarn, { spare with yarn := [] }⟩
  | 5 => ⟨.interp (some ⟨s.yarn, s.offsets, 0⟩), { spare with yarn := [] }⟩
  | 6 => ⟨.funkshon s.numbr, { spare with numbr := 0 }⟩
  | 7 => ⟨.bukkit 0, spare⟩
  | k => ⟨.unknown k, spare⟩

/-- An entry that is left out when it says nothing. -/
def entry (n : Nat) (isZero : Bool) (x : Cbor) : List (Cbor × Cbor) :=
  if isZero then [] else [(.nat n, x)]

def toCbor (s : StoredConstant) : Cbor :=
  .map ((.nat 1, .nat s.kind.toNat)
    :: entry 2 (!s.troof) (.ofBool s.troof)
    ++ entry 3 (s.numbr == 0) (.ofInt s.numbr.toInt)
    ++ entry 4 s.numbar.isZero (.float s.numbar)
    ++ entry 5 s.yarn.isEmpty (.ofText s.yarn)
    ++ entry 6 s.offsets.isEmpty (.array (s.offsets.map Cbor.ofInt)))

def ofCbor? (x : Cbor) : Option StoredConstant := do
  let fs ← Cbor.fields? x
  return {
    kind := ← Cbor.field? fs 1 0 Cbor.byte?
    troof := ← Cbor.field? fs 2 false Cbor.bool?
    numbr := Int64.ofInt (← Cbor.field? fs 3 0 Cbor.int64?)
    numbar := ← Cbor.field? fs 4 .zero Cbor.float?
    yarn := ← Cbor.field? fs 5 [] Cbor.string?
    offsets := ← Cbor.field? fs 6 [] (Cbor.list? Cbor.int64?) }

end StoredConstant

namespace Chunk

def marker : Text := "LOLC"

def toCbor (c : Chunk) : Cbor :=
  .map ([
    (.nat 1, if c.coded then .bytes c.code.toList else .null),
    (.nat 2, .array (c.positions.toList.map Span.toCbor)),
    (.nat 3, .array (c.pool.constants.toList.map fun k => (StoredConstant.ofConstant k).toCbor))]
    ++ if c.names.isEmpty then [] else [(.nat 4, .array (c.names.map Cbor.ofText))])

def ofCbor? (x : Cbor) : Option Chunk := do
  let fs ← Cbor.fields? x
  let code ← Cbor.field? fs 1 none Cbor.code?
  let positions ← Cbor.field? fs 2 [] (Cbor.list? Span.ofCbor?)
  let constants ← Cbor.field? fs 3 [] (Cbor.list? StoredConstant.ofCbor?)
  let names ← Cbor.field? fs 4 [] (Cbor.list? Cbor.string?)
  return {
    code := (code.getD []).toArray
    coded := code.isSome
    positions := positions.toArray
    pool := .ofList (constants.map StoredConstant.toConstant)
    names }

def encode (c : Chunk) : Except ChunkFault Text :=
  match c.fault? with
  | some f => .error f
  | none => .ok (marker ++ Cbor.bigEndian 2 formatVersion ++ c.toCbor.encode)

def isEncoded (data : Text) : Bool :=
  marker.isPrefixOf data

def decode (data : Text) : Except LoadFault Chunk := do
  if !isEncoded data || data.length < marker.length + 2 then throw .notChunk
  let rest := data.drop marker.length
  let version := Cbor.ofBigEndian (rest.take 2)
  if version ≠ formatVersion then throw (.version version)
  match (Cbor.decode? (rest.drop 2)).bind ofCbor? with
  | none => throw .unreadable
  | some c =>
    match c.fault? with
    | some f => throw (.invalid f)
    | none => return c

end Chunk
end LolToolchain
