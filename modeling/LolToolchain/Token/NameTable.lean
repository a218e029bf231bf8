import LolToolchain.Token.Items

/-!
The names of a program, each once, numbered in the order in which they were met.
-/
namespace LolToolchain

/-- Distinct names; a name's number is its place. -/
structure NameTable where
  names : Array Text
  deriving DecidableEq, Repr, Inhabited

namespace NameTable

def empty : NameTable := ⟨#[]⟩

def size (t : NameTable) : Nat :=
  t.names.size

def find? (t : NameTable) (name : Text) : Option Nat :=
  t.names.findIdx? (· == name)

def get? (t : NameTable) (n : Nat) : Option Text :=
  t.names[n]?

/-- The number of a name, which is added if it is new. -/
def intern (t : NameTable) (name : Text) : Nat × NameTable :=
  match t.find? name with
  | some n => (n, t)
  | none => (t.size, ⟨t.names.push name⟩)

def ofList (names : List Text) : NameTable :=
  names.foldl (fun t name => (t.intern name).2) empty

end NameTable

namespace Token

def name? (t : Token) : Option Text :=
  match t.lexeme with
  | .identifier name => some name
  | _ => none

def insertions (t : Token) : List Insertion :=
  match t.lexeme with
  | .string _ insertions => insertions
  | _ => []

/-- The names that tokens bring in, in the order in which a reader meets them who looks one token
ahead: a string's variables come after the identifiers among the two tokens behind it. -/
def introduced (ts : List Token) : List Text :=
  (ts.take 2).filterMap name? ++ go ts (ts.drop 2)
where
  go : List Token → List Token → List Text
    | [], _ => []
    | t :: ts, [] => t.insertions.map Insertion.name ++ go ts []
    | t :: ts, a :: later => a.name?.toList ++ t.insertions.map Insertion.name ++ go ts later

end Token

def implicitName : Text := "IT"

/-- The names of a program given by its tokens; the implicit variable comes first. -/
def NameTable.ofTokens (ts : List Token) : NameTable :=
  ofList (implicitName :: Token.introduced ts)

/-- The names of a source text, up to its first fault. -/
def NameTable.ofSource [CharNames] (file : Int) (text : Text) : NameTable :=
  ofTokens (Token.untilFault (Token.items file text)).1

end LolToolchain
