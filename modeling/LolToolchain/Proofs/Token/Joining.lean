import LolToolchain.Proofs.Token.Spelling

/-!
Lexemes written one behind another with a blank between them, except where a mark is set close to what
it belongs to. The items of the text are tokens with these lexemes.
-/
namespace LolToolchain

namespace Lexer

/-- A character inside a string. -/
def escapeChar : Char → List Char
  | ':' => [':', ':']
  | '"' => [':', '"']
  | '\n' => [':', ')']
  | '\t' => [':', '>']
  | '\x07' => [':', 'o']
  | c => [c]

def escaped (t : Text) : List Char :=
  t.chars.flatMap escapeChar

/-- The inside of a string from an offset of its text on, with the variables that follow. -/
def quotedFrom (text : Text) (done : Nat) : List Insertion → List Char
  | [] => escaped (text.drop done)
  | i :: is =>
    escaped ((text.take i.offset).drop done) ++ ':' :: '{' :: i.name.chars
      ++ '}' :: quotedFrom text i.offset is

end Lexer

namespace Lexeme

/-- The characters that spell a lexeme. -/
def chars : Lexeme → List Char
  | .endOfInput => []
  | .lineBreak => ['\n']
  | .number digits => digits.chars
  | .string text insertions => '"' :: Lexer.quotedFrom text 0 insertions ++ ['"']
  | .identifier name => name.chars
  | .question => ['?']
  | .bang => ['!']
  | .dot => ['.']
  | .keyword k _ => k.word.toList

/-- A lexeme that can be written, without spans. -/
def Writable : Lexeme → Prop
  | .endOfInput => False
  | .number digits => digits.IsNumeral
  | .string text insertions =>
    text.isUtf8 = true ∧
      Template.misplacedFrom text.length 0 (Insertion.offsets insertions) = none ∧
      ∀ i ∈ insertions, text.IsBoundary i.offset ∧ Lexer.isName i.name = true ∧ i.span = .zero
  | .identifier name => name.IsIdentifier
  | .keyword k spelling => spelling = Text.ofString k.word
  | .lineBreak | .question | .bang | .dot => True

/-- Whether a lexeme is set close to the one in front of it: marks and line ends are, and so are the
start of a line and the fraction of a number. -/
def isClose : Lexeme → Lexeme → Bool
  | _, .question | _, .bang | _, .dot | _, .lineBreak | .lineBreak, _ | .dot, .number _ => true
  | _, _ => false

/-- What stands between two lexemes. -/
def gap (l next : Lexeme) : List Char :=
  if l.isClose next && l.kind != next.kind then [] else [' ']

/-- Lexemes one behind another. -/
def joined : List Lexeme → List Char
  | [] => []
  | [l] => l.chars
  | l :: next :: ls => l.chars ++ l.gap next ++ joined (next :: ls)

theorem joined_cons (l : Lexeme) (ls : List Lexeme) : ∃ tail, joined (l :: ls) = l.chars ++ tail := by
  cases ls with
  | nil => exact ⟨[], (List.append_nil _).symm⟩
  | cons next ls => exact ⟨l.gap next ++ joined (next :: ls), List.append_assoc _ _ _⟩

end Lexeme

namespace Lexer

private theorem form_escapeChar (c : Char) : CharForm c (escapeChar c) := by
  unfold escapeChar
  split
  · exact .colon
  · exact .quote
  · exact .line
  · exact .tab
  · exact .bell
  · exact .raw ‹_› ‹_›

namespace Quoted

variable {text : Text} {insertions : List Insertion} {inside : List Char}

theorem escaped (h : Quoted text insertions inside) (cs : List Char) :
    Quoted (text ++ Text.ofChars cs) insertions (inside ++ cs.flatMap escapeChar) := by
  induction cs generalizing text inside with
  | nil => simpa [Text.ofChars] using h
  | cons c cs ih =>
    have hcs := ih (h.char (form_escapeChar c))
    rwa [List.append_assoc, List.append_assoc] at hcs

/-- A string is written from an offset of its text on. -/
private theorem quotedFrom {text : Text} (htext : text.isUtf8 = true) :
    ∀ (is : List Insertion) (done : Nat) (before : List Insertion) (inside : List Char),
      text.IsBoundary done → Template.misplacedFrom text.length done (Insertion.offsets is) = none →
      (∀ i ∈ is, text.IsBoundary i.offset ∧ isName i.name = true ∧ i.span = .zero) →
      Quoted (text.take done) before inside →
      Quoted text (before ++ is) (inside ++ Lexer.quotedFrom text done is)
  | [], done, before, inside, hdone, _, _, h => by
    have hdrop : Text.isUtf8 (text.drop done) = true :=
      Text.isUtf8_of_append hdone.2 (by rwa [List.take_append_drop])
    have hrest := h.escaped (Text.chars (text.drop done))
    rwa [Text.ofChars_chars hdrop, List.take_append_drop, ← List.append_nil before] at hrest
  | i :: is, done, before, inside, hdone, horder, his, h => by
    obtain ⟨⟨hi, hname, hspan⟩, hrest⟩ := List.forall_mem_cons.1 his
    rw [Insertion.offsets, List.map_cons, Template.misplacedFrom] at horder
    split at horder
    · cases horder
    rename_i hordered
    have hle : done ≤ i.offset := by omega
    have htake : text.take done ++ (text.take i.offset).drop done = text.take i.offset := by
      rw [← List.take_append_drop done (text.take i.offset), List.take_take, Nat.min_eq_left hle,
        List.drop_left' (by rw [List.length_take, Nat.min_eq_left hdone.1])]
    have hpiece : Text.isUtf8 ((text.take i.offset).drop done) = true :=
      Text.isUtf8_of_append hdone.2 (by rw [htake]; exact hi.2)
    have hlength : (text.take i.offset).length = i.offset := by
      rw [List.length_take, Nat.min_eq_left hi.1]
    have hi' : (⟨(text.take i.offset).length, i.name, .zero⟩ : Insertion) = i := by
      rw [hlength]
      cases i
      cases hspan
      rfl
    have hbefore := h.escaped (Text.chars ((text.take i.offset).drop done))
    rw [Text.ofChars_chars hpiece, htake] at hbefore
    have hstep := quotedFrom htext is i.offset _ _ hi horder hrest (hbefore.insertion hname)
    rw [hi'] at hstep
    simpa [Lexer.quotedFrom, Lexer.escaped] using hstep

end Quoted

theorem mem_spellings (k : Keyword) : (k.word, k) ∈ Keyword.spellings :=
  List.mem_append_left _ (List.mem_map.2 ⟨k, by cases k <;> decide, rfl⟩)

private theorem isUtf8_of_isNumeral {digits : Text} (h : digits.IsNumeral) : digits.isUtf8 = true := by
  obtain ⟨sign, ds, rfl | rfl, -, -, rfl⟩ := h
  · exact Text.isUtf8_ofChars ds
  · exact Text.isUtf8_append (Text.isUtf8_ofChars _) (Text.isUtf8_ofChars ds)

/-- The characters of a lexeme are one of its spellings. -/
private theorem spelling_chars {l : Lexeme} (hl : l.Writable) : l.Spelling (Text.ofChars l.chars) := by
  cases l with
  | endOfInput => exact hl.elim
  | lineBreak => exact .line .lf
  | number digits =>
    rw [Lexeme.chars, Text.ofChars_chars (isUtf8_of_isNumeral hl)]
    exact .number hl
  | string text insertions =>
    obtain ⟨htext, horder, hinsertions⟩ := hl
    exact .string (Quoted.quotedFrom htext insertions 0 [] [] ⟨Nat.zero_le _, rfl⟩ horder hinsertions
      .nil)
  | identifier name =>
    rw [Lexeme.chars, Text.ofChars_chars (isUtf8_of_isName (Text.IsIdentifier.name hl))]
    exact .identifier hl
  | question => exact .question
  | bang => exact .bang
  | dot => exact .dot
  | keyword k spelling =>
    obtain rfl : spelling = Text.ofString k.word := hl
    exact .keyword (mem_spellings k)

/-- A lexeme starts with a character that is part of no line end or dot, unless it is one itself. -/
private theorem head_chars {l : Lexeme} (hl : l.Writable) (hbreak : l ≠ .lineBreak) (hdot : l ≠ .dot) :
    ∃ c cs, l.chars = c :: cs ∧ Lexeme.lineBreak.absorbs c = false ∧
      Lexeme.dot.absorbs c = false := by
  have hname {name : Text} (h : isName name = true) : ∃ c cs, name.chars = c :: cs ∧
      Lexeme.lineBreak.absorbs c = false ∧ Lexeme.dot.absorbs c = false := by
    obtain ⟨c, cs, rfl, hc, -⟩ := isName_iff.1 h
    refine ⟨c, cs, Text.chars_ofChars _, ?_, beq_eq_false_of hc (by decide)⟩
    rw [Lexeme.absorbs, beq_eq_false_of hc (by decide), beq_eq_false_of hc (by decide)]
    rfl
  cases l with
  | endOfInput => exact hl.elim
  | lineBreak => exact absurd rfl hbreak
  | dot => exact absurd rfl hdot
  | question | bang | string text insertions => exact ⟨_, _, rfl, by decide, by decide⟩
  | identifier name => exact hname hl.name
  | keyword k spelling =>
    have hk := hname (spelled_word (mem_spellings k)).1
    rwa [Text.ofString, Text.chars_ofChars] at hk
  | number digits =>
    obtain ⟨sign, ds, hsign, hne, hds, rfl⟩ := hl
    cases ds with
    | nil => exact absurd rfl hne
    | cons d ds =>
      have hd : isDigit d = true := hds d List.mem_cons_self
      rcases hsign with rfl | rfl
      · refine ⟨d, ds, Text.chars_ofChars _, ?_, beq_eq_false_of hd (by decide)⟩
        rw [Lexeme.absorbs, beq_eq_false_of hd (by decide), beq_eq_false_of hd (by decide)]
        rfl
      · refine ⟨'-', d :: ds, ?_, by decide, by decide⟩
        rw [Lexeme.chars, Text.ofString, ← Text.ofChars_append, Text.chars_ofChars]
        rfl

/-- What stands behind a lexeme is no part of it. -/
private theorem absorbs_gap {l next : Lexeme} (hnext : next.Writable) {behind : List Char} :
    ∀ c ∈ (l.gap next ++ next.chars ++ behind).head?, l.absorbs c = false := by
  by_cases hclose : (l.isClose next && l.kind != next.kind) = true
  · rw [Lexeme.gap, if_pos hclose, List.nil_append]
    obtain ⟨hclose, hkind⟩ := Bool.and_eq_true_iff.1 hclose
    intro c hc
    by_cases hbreak : next = .lineBreak
    · subst hbreak
      cases hc
      cases l <;> first | rfl | cases hkind
    by_cases hdot : next = .dot
    · subst hdot
      cases hc
      cases l <;> first | rfl | cases hkind
    obtain ⟨d, ds, hchars, hfirst⟩ := head_chars hnext hbreak hdot
    rw [hchars] at hc
    cases hc
    cases next with
    | endOfInput => exact hnext.elim
    | lineBreak => exact absurd rfl hbreak
    | dot => exact absurd rfl hdot
    | question | bang =>
      cases hchars
      cases l <;> rfl
    | number digits =>
      cases l with
      | lineBreak => exact hfirst.1
      | dot => exact hfirst.2
      | _ => cases hclose
    | string text insertions | identifier name | keyword k spelling =>
      cases l with
      | lineBreak => exact hfirst.1
      | _ => cases hclose
  · rw [Lexeme.gap, if_neg hclose]
    intro c hc
    cases hc
    cases l <;> rfl

/-- Blanks between lexemes are passed over. -/
private theorem itemsFrom_gap [CharNames] (file : Int) (size pos : Nat) (rest : List Glyph)
    (l next : Lexeme) :
    ∃ pos', itemsFrom file size ⟨pos, (l.gap next).map .char ++ rest⟩ =
      itemsFrom file size ⟨pos', rest⟩ := by
  rw [Lexeme.gap]
  split
  · exact ⟨pos, rfl⟩
  · obtain ⟨pos', hstep⟩ := step_blank file .space pos rest
    exact ⟨pos', itemsFrom_of_gap hstep⟩

/-- The items of lexemes one behind another are tokens with these lexemes, and the end. -/
private theorem itemsFrom_joined [CharNames] (file : Int) (size : Nat) :
    ∀ (ls : List Lexeme), (∀ l ∈ ls, l.Writable) → ∀ pos,
    ∃ ts : List Token, ts.map (fun t => t.lexeme.unspanned) = ls ∧
      itemsFrom file size ⟨pos, (Lexeme.joined ls).map .char⟩ =
        (ts ++ [Token.mk .endOfInput ⟨size, size, file⟩]).map .ok
  | [], _, pos => by
    refine ⟨[], rfl, ?_⟩
    rw [itemsFrom_eq_match]
    rfl
  | [l], h, pos => by
    have hl := spelling_chars (h l List.mem_cons_self)
    obtain ⟨t, pos', hlexeme, hitems⟩ : Finds file size l [] ⟨pos, (Text.ofChars l.chars).glyphs ++ []⟩ :=
      finds_spelling hl nofun
    rw [List.append_nil, Text.glyphs_ofChars] at hitems
    refine ⟨[t], by rw [List.map_singleton, hlexeme], ?_⟩
    rw [Lexeme.joined, hitems, itemsFrom_eq_match]
    rfl
  | l :: next :: ls, h, pos => by
    obtain ⟨hl, htail⟩ := List.forall_mem_cons.1 h
    have hbehind : ∀ g ∈ ((l.gap next).map Glyph.char ++ (Lexeme.joined (next :: ls)).map Glyph.char).head?,
        l.absorbs g.toChar = false := by
      obtain ⟨tail, hjoined⟩ := next.joined_cons ls
      rw [hjoined, ← List.map_append, List.head?_map, ← List.append_assoc]
      intro g hg
      obtain ⟨c, hc, rfl⟩ := Option.map_eq_some_iff.1 hg
      exact absorbs_gap (htail next List.mem_cons_self) c hc
    obtain ⟨t, p₁, hlexeme, hitem⟩ : Finds file size l _ ⟨pos, (Text.ofChars l.chars).glyphs ++ _⟩ :=
      finds_spelling (spelling_chars hl) hbehind
    obtain ⟨p₂, hgap⟩ := itemsFrom_gap file size p₁ ((Lexeme.joined (next :: ls)).map .char) l next
    obtain ⟨ts, hts, hitems⟩ := itemsFrom_joined file size (next :: ls) htail p₂
    refine ⟨t :: ts, by rw [List.map_cons, hlexeme, hts], ?_⟩
    rw [Text.glyphs_ofChars] at hitem
    rw [Lexeme.joined, List.append_assoc, List.map_append, List.map_append, hitem, hgap, hitems]
    rfl

end Lexer

/-- The items of lexemes that are written one behind another. -/
theorem Token.items_joined [CharNames] (file : Int) {ls : List Lexeme} (h : ∀ l ∈ ls, l.Writable) :
    ∃ ts : List Token, ts.map (fun t => t.lexeme.unspanned) = ls ∧
      let size := (Text.ofChars (Lexeme.joined ls)).length
      items file (Text.ofChars (Lexeme.joined ls)) =
        (ts ++ [Token.mk .endOfInput ⟨size, size, file⟩]).map .ok := by
  obtain ⟨ts, hts, hitems⟩ := Lexer.itemsFrom_joined file
    (Text.ofChars (Lexeme.joined ls)).length ls h 0
  refine ⟨ts, hts, ?_⟩
  rw [items, Cursor.ofText, Text.glyphs_ofChars]
  exact hitems

end LolToolchain
