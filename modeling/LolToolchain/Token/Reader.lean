import LolToolchain.Token.NameTable

/-!
Reading a source text token by token. A fault is read like a token, and reading goes on behind it;
the end of the input can be read any number of times.
-/
namespace LolToolchain

/-- The items of a text, the place that has been reached, and whether the item there has been looked
at. -/
structure TokenReader where
  items : List (Except Diagnostic Token)
  place : Nat
  peeked : Bool
  deriving Inhabited

namespace TokenReader

def ofSource [CharNames] (file : Int) (text : Text) : TokenReader :=
  ⟨Token.items file text, 0, false⟩

/-- Goes on by some items, but not beyond the end of the input. -/
def advance (r : TokenReader) (n : Nat) : TokenReader :=
  ⟨r.items, min (r.place + n) (r.items.length - 1), false⟩

def peek (r : TokenReader) : Option (Except Diagnostic Token) × TokenReader :=
  (r.items[r.place]?, { r with peeked := true })

def next (r : TokenReader) : Option (Except Diagnostic Token) × TokenReader :=
  (r.items[r.place]?, r.advance 1)

def readAll (r : TokenReader) : List Token × Option Diagnostic × TokenReader :=
  let (tokens, fault) := Token.untilFault (r.items.drop r.place)
  (tokens, fault, r.advance (tokens.length + 1))

/-- The names among the items that have been looked at. -/
def names (r : TokenReader) : NameTable :=
  let seen := r.items.take (if r.peeked then r.place + 1 else r.place)
  .ofList (seen.filterMap fun
    | .ok t => t.name?
    | .error _ => none)

end TokenReader
end LolToolchain
