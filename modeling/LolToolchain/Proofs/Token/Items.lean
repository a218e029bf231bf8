import LolToolchain.Pipeline
import LolToolchain.Proofs.Effect

/-!
The items of a text by a recursion that computes: each step of the lexer leaves less of the text, so
as many steps as there are characters are enough.
-/
namespace LolToolchain

namespace Lexer

/-- The items from a place on, if they are found in a number of steps. -/
def itemsWithin [CharNames] (file : Int) (size : Nat) :
    Nat → Cursor → List (Except Diagnostic Token)
  | 0, _ => []
  | n + 1, c =>
    match step file c with
    | .stop => [.ok ⟨.endOfInput, ⟨size, size, file⟩⟩]
    | .gap next => itemsWithin file size n next
    | .item s => s.item :: itemsWithin file size n s.next

private theorem itemsFrom_eq [CharNames] (file : Int) (size : Nat) {n : Nat} {c : Cursor}
    (h : c.rest.length < n) : itemsFrom file size c = itemsWithin file size n c := by
  obtain ⟨n, rfl⟩ : ∃ k, n = k + 1 := ⟨n - 1, by omega⟩
  rw [itemsWithin]
  fun_induction itemsFrom file size c generalizing n with
  | case1 c hs => rw [hs]
  | case2 c next hs hlt ih =>
    rw [hs]
    obtain ⟨n, rfl⟩ : ∃ k, n = k + 1 := ⟨n - 1, by omega⟩
    exact ih n (by omega)
  | case3 c s hs hlt ih =>
    rw [hs]
    obtain ⟨n, rfl⟩ : ∃ k, n = k + 1 := ⟨n - 1, by omega⟩
    exact congrArg _ (ih n (by omega))

end Lexer

theorem Token.items_eq [CharNames] (file : Int) (text : Text) :
    Token.items file text = Lexer.itemsWithin file text.length ((Cursor.ofText text).rest.length + 1)
      (.ofText text) :=
  Lexer.itemsFrom_eq file text.length (Nat.lt_succ_self _)

/-- The chunk of a source text by functions that compute. -/
def compileWithin [CharNames] (file : Int) (text : Text) (optimize : Bool) :
    Except Diagnostic Chunk := do
  let items := Lexer.itemsWithin file text.length ((Cursor.ofText text).rest.length + 1) (.ofText text)
  let program ← Program.ofItems ⟨.endOfInput, ⟨text.length, text.length, file⟩⟩ items
  let program := if optimize then program.simplify else program
  program.compile (NameTable.ofTokens (Token.untilFault items).1)

theorem compileSource_eq [CharNames] (file : Int) (text : Text) (optimize : Bool) :
    compileSource file text optimize = compileWithin file text optimize := by
  simp only [compileSource, compileWithin, Program.parse, NameTable.ofSource, Token.items_eq]

/-- A text whose chunk is known. -/
theorem exists_compileText [CharNames] {file : Int} {text : Text} {optimize : Bool}
    (good : Chunk → Bool) (h : (compileWithin file text optimize).toOption.any good = true) :
    ∃ c, compileSource file text optimize = .ok c ∧ good c = true := by
  rw [compileSource_eq]
  exact exists_of_toOption_any h

theorem Text.ofString_ofList (cs : List Char) : ofString (String.ofList cs) = ofChars cs := by
  rw [ofString, String.toList_ofList]

/-- A source text whose chunk is known. The characters of a string are at hand in a list, so that
nothing has to be decoded to compute with them. -/
theorem exists_compileSource [CharNames] {file : Int} {cs : List Char} {optimize : Bool}
    (good : Chunk → Bool)
    (h : (compileWithin file (.ofChars cs) optimize).toOption.any good = true) :
    ∃ c, compileSource file (String.ofList cs) optimize = .ok c ∧ good c = true := by
  rw [Text.ofString_ofList]
  exact exists_compileText good h

/-- A source text whose program is known. -/
theorem exists_parse [CharNames] {file : Int} {cs : List Char} (good : Program → Bool)
    (h : (Program.ofItems ⟨.endOfInput, ⟨(Text.ofChars cs).length, (Text.ofChars cs).length, file⟩⟩
      (Lexer.itemsWithin file (Text.ofChars cs).length
        ((Cursor.ofText (Text.ofChars cs)).rest.length + 1)
        (.ofText (Text.ofChars cs)))).toOption.any good = true) :
    ∃ p, Program.parse file (String.ofList cs) = .ok p ∧ good p = true := by
  rw [Text.ofString_ofList, Program.parse, Token.items_eq]
  exact exists_of_toOption_any h

end LolToolchain
