import LolToolchain.Bytecode.Stored

/-!
A store of compiled programs. A row holds the version of its format and the stored bytes; a row
that cannot be used is dropped when it is looked up.
-/
namespace LolToolchain

structure Row where
  format : Int
  data : Text
  deriving DecidableEq, Repr, Inhabited

/-- The chunk of a row, if its version is ours and its bytes can be read. -/
def Row.chunk? (r : Row) : Option Chunk :=
  if r.format = formatVersion then (Chunk.decode r.data).toOption else none

/-- Rows by key, each key once. -/
structure Store where
  rows : List (Text × Row)
  deriving DecidableEq, Repr, Inhabited

namespace Store

def empty : Store := ⟨[]⟩

def size (s : Store) : Nat :=
  s.rows.length

/-- The key of a program: all that its chunk depends on. -/
def key (text : Text) (optimize : Bool) : Text :=
  "lolc" ++ Text.ofNat formatVersion ++ ":" ++ (if optimize then "1" else "0") ++ ":" ++ text

def row? (s : Store) (key : Text) : Option Row :=
  s.rows.lookup key

def erase (s : Store) (key : Text) : Store :=
  ⟨s.rows.filter fun r => r.1 != key⟩

def insert (s : Store) (key : Text) (row : Row) : Store :=
  ⟨(key, row) :: (s.erase key).rows⟩

/-- The chunk with a key, and the store without the row if that is of no use. -/
def get (s : Store) (key : Text) : Option Chunk × Store :=
  match s.row? key with
  | none => (none, s)
  | some row =>
    match row.chunk? with
    | some c => (some c, s)
    | none => (none, s.erase key)

def put (s : Store) (key : Text) (c : Chunk) : Except ChunkFault Store := do
  return s.insert key ⟨formatVersion, ← c.encode⟩

/-- The bytes of a store: its rows in order, each as key, format and data. -/
def encode (s : Store) : Text :=
  (Cbor.array (s.rows.map fun (key, row) =>
    .array [.bytes key, .ofInt row.format, .bytes row.data])).encode

def rowOfCbor? : Cbor → Option (Text × Row)
  | .array [.bytes key, format, .bytes data] => do return (key, ⟨← format.int64?, data⟩)
  | _ => none

def decode? (data : Text) : Option Store :=
  match Cbor.decode? data with
  | some (.array rows) => (rows.mapM rowOfCbor?).map (⟨·⟩)
  | _ => none

end Store

inductive StoreFault where
  | directory
  | unopenable
  | notDatabase
  | lookup
  | encoding (fault : ChunkFault)
  | save
  | count
  | clear
  deriving DecidableEq, Repr, Inhabited

def StoreFault.message : StoreFault → Text
  | .directory => "creating cache directory"
  | .unopenable => "setting busy timeout"
  | .notDatabase => "creating table"
  | .lookup => "querying chunk"
  | .encoding f => "encoding chunk: " ++ f.message
  | .save => "saving chunk"
  | .count => "counting chunks"
  | .clear => "clearing cache"

/-- A store that may have been closed; a closed store keeps its rows, but refuses all work. -/
structure Cache where
  store : Store
  isOpen : Bool
  deriving DecidableEq, Repr, Inhabited

namespace Cache

def ofStore (s : Store) : Cache := ⟨s, true⟩

def close (c : Cache) : Cache := { c with isOpen := false }

def reopen (c : Cache) : Cache := { c with isOpen := true }

def get (c : Cache) (key : Text) : Except StoreFault (Option Chunk × Cache) :=
  if c.isOpen then
    let (chunk, store) := c.store.get key
    .ok (chunk, { c with store })
  else .error .lookup

/-- Stores a chunk. Its shape is looked at first. -/
def put (c : Cache) (key : Text) (chunk : Chunk) : Except StoreFault Cache :=
  match c.store.put key chunk with
  | .error f => .error (.encoding f)
  | .ok store => if c.isOpen then .ok { c with store } else .error .save

def size (c : Cache) : Except StoreFault Nat :=
  if c.isOpen then .ok c.store.size else .error .count

def clear (c : Cache) : Except StoreFault Cache :=
  if c.isOpen then .ok { c with store := .empty } else .error .clear

end Cache
end LolToolchain
