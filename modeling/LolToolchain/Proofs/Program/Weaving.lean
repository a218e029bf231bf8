import LolToolchain.Proofs.Program.Reading

/-!
Texts with variables between them, written in two ways: as one string with the variables in it, and
as strings and variables that are joined. Both are read back wherever an expression can stand, and
with each way to write a text inside a string.
-/
namespace LolToolchain

/-- A text, with a way to write it inside a string. -/
structure Segment where
  text : Text
  inside : List Char
  spelled : Lexer.Quoted text [] inside

/-- Each text can be written. -/
def Segment.ofChars (cs : List Char) : Segment :=
  ⟨Text.ofChars cs, cs.flatMap Lexer.escapeChar, Lexer.Quoted.nil.escaped cs⟩

/-- A variable that is an expression: one with an identifier, or the implicit one. -/
structure Reference where
  name : Text
  valid : name.IsIdentifier ∨ name = implicitName

/-- Texts with variables between them, at least one. -/
structure Weave where
  first : Segment
  rest : List (Reference × Segment)
  woven : rest ≠ []

def Segment.expr (s : Segment) : Expr :=
  .string .zero s.text

/-- The text as a string. -/
def Segment.quoted (s : Segment) : List Char :=
  '"' :: s.inside ++ ['"']

def Reference.ident (r : Reference) : Ident :=
  ⟨r.name, .zero⟩

def Reference.expr (r : Reference) : Expr :=
  if r.name = implicitName then .it .zero else .var .zero r.ident

/-- A reserved word with blanks around it. -/
def Keyword.spaced (k : Keyword) : List Char :=
  ' ' :: k.word.toList ++ [' ']

namespace Weave

/-- The variables, each behind the texts in front of it; the first of these has a given length. -/
def splicesFrom (length : Nat) : List (Reference × Segment) → List Splice
  | [] => []
  | (r, s) :: rest => ⟨length, r.ident⟩ :: splicesFrom (length + s.text.length) rest

def exprs (rest : List (Reference × Segment)) : List Expr :=
  rest.flatMap fun p => [p.1.expr, p.2.expr]

variable (w : Weave)

/-- The texts without the variables. -/
def text : Text :=
  w.first.text ++ w.rest.flatMap fun p => p.2.text

/-- One string with the variables in it. -/
def literal : Expr :=
  .interp .zero w.text (splicesFrom w.first.text.length w.rest)

def literalSource : List Char :=
  '"' :: (w.first.inside ++ w.rest.flatMap fun p => ':' :: '{' :: p.1.name.chars ++ '}' :: p.2.inside)
    ++ ['"']

/-- The strings and the variables joined. -/
def joined : Expr :=
  .concat .zero (w.first.expr :: exprs w.rest)

/-- The variables and the texts behind them, each behind `AN`. -/
def andSource : List (Reference × Segment) → List Char
  | [] => []
  | (r, s) :: rest =>
    Keyword.AN.spaced ++ r.name.chars ++ Keyword.AN.spaced ++ s.quoted ++ andSource rest

def joinedSource : List Char :=
  Keyword.SMOOSH.word.toList ++ ' ' :: w.first.quoted ++ andSource w.rest
    ++ ' ' :: Keyword.MKAY.word.toList

end Weave

namespace Lexer

/-- In front of some glyphs, characters are read as lexemes. -/
def Spells [CharNames] (source : List Char) (ls : List Lexeme) (rest : List Glyph) : Prop :=
  ∀ (file : Int) (size pos : Nat), ∃ (ts : List Token) (pos' : Nat),
    ts.map (fun t => t.lexeme.unspanned) = ls ∧
      itemsFrom file size ⟨pos, source.map .char ++ rest⟩ =
        ts.map .ok ++ itemsFrom file size ⟨pos', rest⟩

namespace Spells

variable {cs ds : List Char} {l : Lexeme} {ls ms : List Lexeme} {rest : List Glyph}

theorem lexeme [CharNames] (h : l.Spelling (Text.ofChars cs))
    (hrest : ∀ g ∈ rest.head?, l.absorbs g.toChar = false) : Spells cs [l] rest := by
  intro file size pos
  obtain ⟨t, pos', hlexeme, hitems⟩ : Finds file size l rest ⟨pos, (Text.ofChars cs).glyphs ++ rest⟩ :=
    finds_spelling h hrest
  rw [Text.glyphs_ofChars] at hitems
  exact ⟨[t], pos', by rw [List.map_singleton, hlexeme], hitems⟩

theorem append [CharNames] (h : Spells cs ls (ds.map .char ++ rest)) (h' : Spells ds ms rest) :
    Spells (cs ++ ds) (ls ++ ms) rest := by
  intro file size pos
  obtain ⟨ts, p₁, hts, hitems⟩ := h file size pos
  obtain ⟨us, p₂, hus, hitems'⟩ := h' file size p₁
  refine ⟨ts ++ us, p₂, by rw [List.map_append, hts, hus], ?_⟩
  rw [List.map_append, List.append_assoc, hitems, hitems', List.map_append, List.append_assoc]

theorem blank [CharNames] : Spells [' '] [] rest := by
  intro file size pos
  obtain ⟨pos', hstep⟩ := step_blank file .space pos rest
  exact ⟨[], pos', rfl, itemsFrom_of_gap hstep⟩

theorem behind_blank [CharNames] (h : Spells cs ls rest) : Spells (' ' :: cs) ls rest := by
  have hcs : Spells ([' '] ++ cs) ([] ++ ls) rest := blank.append h
  exact hcs

/-- No name goes on with a blank. -/
theorem blank_ahead : ∀ g ∈ ((' ' :: cs).map Glyph.char ++ rest).head?,
    continuesName g.toChar = false := by
  rintro _ ⟨⟩
  rfl

theorem keyword [CharNames] (k : Keyword)
    (hrest : ∀ g ∈ rest.head?, continuesName g.toChar = false) :
    Spells k.word.toList [k.lexeme] rest :=
  lexeme (.keyword (mem_spellings k)) hrest

theorem spaced [CharNames] (k : Keyword) : Spells k.spaced [k.lexeme] rest :=
  (behind_blank (keyword k blank_ahead)).append blank

theorem string [CharNames] {text : Text} {insertions : List Insertion} {inside : List Char}
    (h : Quoted text insertions inside) :
    Spells ('"' :: inside ++ ['"']) [.string text insertions] rest :=
  lexeme (.string h) fun _ _ => rfl

end Spells

namespace Quoted

variable {text text' : Text} {insertions : List Insertion} {inside inside' : List Char}

theorem isUtf8 (h : Quoted text insertions inside) : text.isUtf8 = true := by
  induction h with
  | nil => rfl
  | @char _ _ _ _ c _ _ ih =>
    have hc : Text.isUtf8 (Text.encodeChar c) = true := by
      simpa [Text.ofChars] using Text.isUtf8_ofChars [c]
    exact Text.isUtf8_append ih hc
  | insertion _ _ ih => exact ih

/-- A text without variables can be written behind another. -/
theorem append (h : Quoted text insertions inside) (h' : Quoted text' [] inside') :
    Quoted (text ++ text') insertions (inside ++ inside') := by
  generalize hnone : ([] : List Insertion) = none at h'
  induction h' with
  | nil => rwa [List.append_nil, List.append_nil]
  | char _ hform ih =>
    have hchar := (ih hnone).char hform
    rwa [List.append_assoc, List.append_assoc] at hchar
  | insertion _ _ _ =>
    exact absurd hnone.symm (List.append_ne_nil_of_right_ne_nil _ (List.cons_ne_nil _ _))

end Quoted
end Lexer

/-- Wherever an expression can stand, this one is read from these characters, whatever is behind them
that its last word does not go on with. -/
def Expr.IsReadFrom [CharNames] (x : Expr) (source : List Char) : Prop :=
  ∃ ls : List Lexeme,
    (∀ rest : List Glyph, (∀ g ∈ rest.head?, Lexer.continuesName g.toChar = false) →
      Lexer.Spells source ls rest) ∧
    ∀ (w : Window) (l : Lexeme) (behind : List Lexeme) (n : Nat), w.Shows (ls ++ l :: behind) →
      ls.length ≤ n →
        Parser.Gives (Parser.expr n) w (fun y => y.unspanned = x.unspanned) (l :: behind)

namespace Reference

variable (r : Reference)

theorem isName : Lexer.isName r.name = true := by
  obtain ⟨name, h | rfl⟩ := r
  · exact h.name
  · decide

theorem lexemes_expr (spell : Numbar → Text × Text) :
    r.expr.lexemes spell = [r.ident.targetLexeme] := by
  unfold expr Ident.targetLexeme
  change (if r.name = implicitName then _ else _ : Expr).lexemes spell =
    [if r.name = implicitName then _ else _]
  split <;> rfl

theorem spells [CharNames] {rest : List Glyph}
    (hrest : ∀ g ∈ rest.head?, Lexer.continuesName g.toChar = false) :
    Lexer.Spells r.name.chars [r.ident.targetLexeme] rest := by
  have hchars := Text.ofChars_chars (Lexer.isUtf8_of_isName r.isName)
  change Lexer.Spells _ [if r.name = implicitName then _ else _] _
  split
  · rename_i hname
    rw [hname, implicitName, Text.ofString, Text.chars_ofChars]
    exact Lexer.Spells.keyword .IT hrest
  · rename_i hname
    refine Lexer.Spells.lexeme ?_ hrest
    rw [hchars]
    exact .identifier (r.valid.resolve_right hname)

private theorem meets {spell : Numbar → Text × Text} : r.expr.Meets (.rendered spell) := by
  unfold expr
  split
  · exact trivial
  · exact ⟨trivial, trivial, r.valid.resolve_right ‹_›⟩

end Reference

namespace Weave

variable (w : Weave)

private theorem quoted_rest {text : Text} {insertions : List Insertion} {inside : List Char}
    (h : Lexer.Quoted text insertions inside) (rest : List (Reference × Segment)) :
    Lexer.Quoted (text ++ rest.flatMap fun p => p.2.text)
      (insertions ++ (splicesFrom text.length rest).map Splice.insertion)
      (inside ++ rest.flatMap fun p => ':' :: '{' :: p.1.name.chars ++ '}' :: p.2.inside) := by
  induction rest generalizing text insertions inside with
  | nil => simpa [splicesFrom] using h
  | cons p rest ih =>
    obtain ⟨r, s⟩ := p
    have hrest := ih ((h.insertion r.isName).append s.spelled)
    rw [List.length_append] at hrest
    simpa [splicesFrom, Splice.insertion, Reference.ident] using hrest

private theorem splicesFrom_ne_nil (n : Nat) : splicesFrom n w.rest ≠ [] := by
  obtain ⟨first, rest, hne⟩ := w
  cases rest with
  | nil => exact absurd rfl hne
  | cons p rest => exact List.cons_ne_nil _ _

theorem literal_isReadFrom [CharNames] : w.literal.IsReadFrom w.literalSource := by
  refine ⟨_, fun rest _ => Lexer.Spells.string (quoted_rest w.first.spelled w.rest),
    fun window l behind n hw hlen => ?_⟩
  obtain ⟨n, rfl⟩ : ∃ k, n = k + 1 := ⟨n - 1, by rw [List.length_singleton] at hlen; omega⟩
  change window.Shows (w.literal.lexemes (fun _ => ([], [])) ++ l :: behind) at hw
  exact Parser.gives_interp hw (w.splicesFrom_ne_nil _)

private theorem meets_exprs {spell : Numbar → Text × Text} (rest : List (Reference × Segment)) :
    Expr.MeetsAll (.rendered spell) (exprs rest) := by
  induction rest with
  | nil => exact trivial
  | cons p rest ih => exact ⟨p.1.meets, ⟨trivial, p.2.spelled.isUtf8⟩, ih⟩

/-- The variables and the texts behind them are read up to the `MKAY` at the end. -/
private theorem spells_following [CharNames] (spell : Numbar → Text × Text) {glyphs : List Glyph}
    (h : ∀ g ∈ glyphs.head?, Lexer.continuesName g.toChar = false)
    (rest : List (Reference × Segment)) :
    Lexer.Spells (andSource rest ++ ' ' :: Keyword.MKAY.word.toList)
      (Parser.following spell [] (exprs rest) [Keyword.lexeme .MKAY]) glyphs := by
  induction rest with
  | nil => exact .behind_blank (.keyword .MKAY h)
  | cons p rest ih =>
    obtain ⟨r, s⟩ := p
    have hlexemes : Parser.following spell [] (exprs ((r, s) :: rest)) [Keyword.lexeme .MKAY] =
        [Keyword.lexeme .AN] ++ ([r.ident.targetLexeme] ++ ([Keyword.lexeme .AN] ++
          ([.string s.text []] ++
            Parser.following spell [] (exprs rest) [Keyword.lexeme .MKAY]))) := by
      change Keyword.lexeme .AN :: (Expr.listed spell [] (r.expr :: s.expr :: exprs rest) ++ _) = _
      rw [Parser.listed_cons, r.lexemes_expr, Parser.following, Parser.listed_cons]
      rfl
    rw [hlexemes, andSource]
    simp only [List.append_assoc]
    exact .append (.spaced .AN) (.append (r.spells Lexer.Spells.blank_ahead)
      (.append (.spaced .AN) (.append (.string s.spelled) ih)))

theorem joined_isReadFrom [CharNames] : w.joined.IsReadFrom w.joinedSource := by
  let spell : Numbar → Text × Text := fun _ => ([], [])
  have hlexemes : w.joined.lexemes spell = [Keyword.lexeme .SMOOSH] ++ ([.string w.first.text []] ++
      Parser.following spell [] (exprs w.rest) [Keyword.lexeme .MKAY]) := by
    change Keyword.lexeme .SMOOSH :: Expr.listed spell [] (w.first.expr :: exprs w.rest) ++ _ = _
    rw [List.cons_append, Parser.listed_cons]
    rfl
  have hmeets : w.joined.Meets (.rendered spell) :=
    ⟨trivial, ⟨⟨trivial, w.first.spelled.isUtf8⟩, meets_exprs w.rest⟩, List.cons_ne_nil _ _⟩
  refine ⟨w.joined.lexemes spell, fun rest hrest => ?_, fun window l behind n hw hlen => ?_⟩
  · rw [hlexemes, joinedSource]
    simp only [List.append_assoc]
    exact .append (.keyword .SMOOSH Lexer.Spells.blank_ahead) (.behind_blank
      (.append (.string w.first.spelled) (spells_following spell hrest w.rest)))
  · obtain ⟨n, rfl⟩ : ∃ k, n = k + 1 := ⟨n - 1, by
      have := List.length_pos_iff.2 (Parser.lexemes_ne_nil hmeets)
      omega⟩
    exact (Parser.readsBack_expr spell n).concat hw hmeets (Nat.le_refl n) hlen

end Weave
end LolToolchain
