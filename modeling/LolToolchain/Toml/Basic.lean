import LolToolchain.Numbar.Basic
import LolToolchain.Text.Basic

/-!
Documents of keys and values with nested tables. A table is opened by a heading, by a dotted key, by
an inline table, or in passing, as the parent of another. What was only opened in passing may be set
once more: the table stays and the new value is dropped, unless the key was last given an array, and
then the new value takes its place. Every other key is set once.
-/
namespace LolToolchain

abbrev TomlKey := List Text

/-- A value of a document. `tables` are the tables under a repeated heading, the last one first. -/
inductive Toml where
  | string (t : Text)
  | integer (n : Int64)
  | float (x : Numbar)
  | boolean (b : Bool)
  | moment (t : Text)
  | array (items : List Toml)
  | table (entries : List (Text × Toml))
  | tables (items : List (List (Text × Toml)))
  deriving Inhabited

/-- A value as it is written: inline tables still have dotted keys. -/
inductive TomlSource where
  | value (v : Toml)
  | array (items : List TomlSource)
  | inline (entries : List (TomlKey × TomlSource))
  deriving Inhabited

inductive TomlLine where
  | table (key : TomlKey)
  | tables (key : TomlKey)
  | entry (key : TomlKey) (value : TomlSource)
  deriving Inhabited

abbrev TomlTable := List (Text × Toml)

namespace TomlTable

def set (key : Text) (v : Toml) : TomlTable → TomlTable
  | [] => [(key, v)]
  | (k, w) :: rest => if k = key then (k, v) :: rest else (k, w) :: set key v rest

/-- Changes the table that a path leads to. Under a repeated heading that is the last table; there
is no result if something on the path is no table. -/
def modify? (f : TomlTable → Option TomlTable) : TomlKey → TomlTable → Option TomlTable
  | [], t => f t
  | k :: path, t =>
    match t.lookup k with
    | some (.table sub) => do
      let sub ← modify? f path sub
      return set k (.table sub) t
    | some (.tables (last :: earlier)) => do
      let last ← modify? f path last
      return set k (.tables (last :: earlier)) t
    | _ => none

end TomlTable

/-- A document while it is read: its content, the keys that were opened in passing and may be set
once more, and the keys that were last given an array. -/
structure TomlBuilder where
  root : TomlTable
  passing : List TomlKey
  arrays : List TomlKey
  deriving Inhabited

namespace TomlBuilder

def empty : TomlBuilder := ⟨[], [], []⟩

def contains (b : TomlBuilder) (path : TomlKey) (key : Text) : Bool :=
  (TomlTable.modify? (fun t => if (t.lookup key).isSome then some t else none) path b.root).isSome

def put (b : TomlBuilder) (path : TomlKey) (key : Text) (v : Toml) : Option TomlBuilder := do
  let root ← TomlTable.modify? (fun t => some (TomlTable.set key v t)) path b.root
  return { b with root }

def pass (b : TomlBuilder) (key : TomlKey) : TomlBuilder :=
  { b with passing := key :: b.passing }

def assign (b : TomlBuilder) (path : TomlKey) (key : Text) (v : Toml) : Option TomlBuilder :=
  let here := path ++ [key]
  if !b.contains path key then b.put path key v
  else if !b.passing.contains here then none
  else
    let b := { b with passing := b.passing.filter (· != here) }
    if b.arrays.contains here then b.put path key v else some b

/-- Remembers whether a key was given an array. The empty key stands for the table it is in, except
in the outermost one. -/
def note (b : TomlBuilder) (path : TomlKey) (key : Text) (isArray : Bool) : TomlBuilder :=
  let here := if key.isEmpty && !path.isEmpty then path else path ++ [key]
  let arrays := b.arrays.filter (· != here)
  { b with arrays := if isArray then here :: arrays else arrays }

/-- Opens the tables above a heading, as far as they do not exist. -/
def openParents (path : TomlKey) : TomlKey → TomlBuilder → Option TomlBuilder
  | [], b => some b
  | k :: rest, b => do
    let here := path ++ [k]
    let b ← if b.contains path k then some b else (b.pass here).put path k (.table [])
    openParents here rest b

def openTable (b : TomlBuilder) (key : TomlKey) : Option TomlBuilder := do
  let last ← key.getLast?
  let b ← openParents [] key.dropLast b
  b.assign key.dropLast last (.table [])

/-- Opens one more of the tables with the same key. -/
def openTables (b : TomlBuilder) (key : TomlKey) : Option TomlBuilder := do
  let last ← key.getLast?
  let b ← openParents [] key.dropLast b
  let root ← TomlTable.modify? (fun t =>
    match t.lookup last with
    | none => some (TomlTable.set last (.tables [[]]) t)
    | some (.tables items) => some (TomlTable.set last (.tables ([] :: items)) t)
    | some _ => none) key.dropLast b.root
  return { b with root }

def openDotted (path : TomlKey) : TomlKey → TomlBuilder → Option TomlBuilder
  | [], b => some b
  | k :: rest, b => do
    let here := path ++ [k]
    openDotted here rest (← (b.pass here).assign path k (.table []))

end TomlBuilder

/-- Puts a value at a dotted key, whatever is there. There is no result if something on the way is
no table. -/
def TomlTable.putDeep? (v : Toml) : TomlKey → TomlTable → Option TomlTable
  | [], _ => none
  | [k], t => some (set k v t)
  | k :: rest, t =>
    match t.lookup k with
    | none => do return set k (.table (← putDeep? v rest [])) t
    | some (.table sub) => do return set k (.table (← putDeep? v rest sub)) t
    | some _ => none

namespace TomlSource

def isArray : TomlSource → Bool
  | .array _ => true
  | _ => false

mutual

/-- The value of what is written for a key of the table that a path leads to. The tables in it are
opened in the document too; `listed` says whether it stands in an array. -/
def eval (path : TomlKey) (key : Text) (listed : Bool) :
    TomlSource → TomlBuilder → Option (Toml × TomlBuilder)
  | .value v, b => some (v, b)
  | .array items, b => do
    let (vs, b) ← evalItems path key items (b.note path key true)
    return (.array vs, b)
  | .inline entries, b => do
    let here := path ++ [key]
    let b := b.pass here
    let b ← if listed then b.openTables here else b.openTable here
    let (t, b) ← evalEntries here entries [] b
    return (.table t, b)

def evalItems (path : TomlKey) (key : Text) :
    List TomlSource → TomlBuilder → Option (List Toml × TomlBuilder)
  | [], b => some ([], b)
  | s :: ss, b => do
    let (v, b) ← eval path key true s b
    let (vs, b) ← evalItems path key ss b
    return (v :: vs, b)

/-- Adds entries to the table that a path leads to, and to a table that is made apart from it. -/
def evalEntries (path : TomlKey) :
    List (TomlKey × TomlSource) → TomlTable → TomlBuilder → Option (TomlTable × TomlBuilder)
  | [], t, b => some (t, b)
  | (key, s) :: rest, t, b => do
    let last ← key.getLast?
    let above := path ++ key.dropLast
    let b ← TomlBuilder.openDotted path key.dropLast b
    let (v, b) ← eval above last false s b
    let b ← b.assign above last v
    evalEntries path rest (← TomlTable.putDeep? v key t) (b.note above last s.isArray)

end

end TomlSource

namespace TomlBuilder

def addEntry (b : TomlBuilder) (path key : TomlKey) (s : TomlSource) : Option TomlBuilder := do
  let (_, b) ← TomlSource.evalEntries path [(key, s)] [] b
  return b

def addHeading (b : TomlBuilder) (key : TomlKey) (isRepeated : Bool) : Option TomlBuilder := do
  let b ← if isRepeated then b.openTables key else b.openTable key
  return b.note key [] false

/-- Adds lines, beginning in the table that a path leads to. -/
def addLines (path : TomlKey) : List TomlLine → TomlBuilder → Option TomlBuilder
  | [], b => some b
  | .table key :: rest, b => do addLines key rest (← b.addHeading key false)
  | .tables key :: rest, b => do addLines key rest (← b.addHeading key true)
  | .entry key s :: rest, b => do addLines path rest (← b.addEntry path key s)

end TomlBuilder

def TomlTable.ofLines? (lines : List TomlLine) : Option TomlTable := do
  return (← TomlBuilder.addLines [] lines .empty).root

end LolToolchain
