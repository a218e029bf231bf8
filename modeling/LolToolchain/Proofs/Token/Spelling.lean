import LolToolchain.Proofs.Token.Validity

/-!
The ways to write a lexeme. From each of them the lexeme is read back, whatever stands behind it,
unless that would be read as a part of it. The spans inside string lexemes are left out of the
comparison.
-/
namespace LolToolchain

namespace Cursor

variable {pos : Nat} {g : Glyph} {gs hs : List Glyph} {p : Char → Bool}

@[simp] theorem peek?_cons : (Cursor.mk pos (g :: gs)).peek? 0 = some g.toChar :=
  rfl

theorem skip_cons (pos : Nat) (g : Glyph) (gs : List Glyph) :
    ∃ pos', (Cursor.mk pos (g :: gs)).skip 1 = ⟨pos', gs⟩ :=
  ⟨_, rfl⟩

theorem startsWith_eq_false {d : Char} {ds : List Char} (h : (g.toChar == d) = false) :
    (Cursor.mk pos (g :: gs)).startsWith (d :: ds) = false := by
  rw [startsWith, List.length_cons, List.take_succ_cons, List.map_cons]
  exact beq_eq_false_iff_ne.2 fun heq => beq_eq_false_iff_ne.1 h (List.cons.inj heq).1

theorem ahead_append (hhs : ∀ h ∈ hs, p h.toChar = true) (hgs : ∀ g ∈ gs.head?, p g.toChar = false) :
    (Cursor.mk pos (hs ++ gs)).ahead p = hs := by
  have hstop : gs.takeWhile (fun g => p g.toChar) = [] := by
    cases gs with
    | nil => rfl
    | cons g gs => exact List.takeWhile_cons_of_neg (Bool.eq_false_iff.1 (hgs g rfl))
  rw [ahead, List.takeWhile_append_of_pos hhs, hstop, List.append_nil]

theorem past_append (pos : Nat) (hs gs : List Glyph) :
    ∃ pos', (Cursor.mk pos (hs ++ gs)).past hs = ⟨pos', gs⟩ := by
  refine ⟨_, congrArg (Cursor.mk _) ?_⟩
  exact List.drop_left

theorem skipWhile_append (pos : Nat) (hhs : ∀ h ∈ hs, p h.toChar = true)
    (hgs : ∀ g ∈ gs.head?, p g.toChar = false) :
    ∃ pos', (Cursor.mk pos (hs ++ gs)).skipWhile p = ⟨pos', gs⟩ := by
  rw [skipWhile, ahead_append hhs hgs]
  exact past_append pos hs gs

theorem ofGlyphs_map_char (cs : List Char) : Text.ofGlyphs (cs.map .char) = Text.ofChars cs := by
  rw [Text.ofGlyphs, List.flatMap_map]
  rfl

theorem forall_mem_map_char {cs : List Char} (h : ∀ c ∈ cs, p c = true) :
    ∀ g ∈ cs.map Glyph.char, p g.toChar = true := by
  intro g hg
  obtain ⟨c, hc, rfl⟩ := List.mem_map.1 hg
  exact h c hc

end Cursor

open Cursor

namespace Lexer

/-- The characters of the sixteen digits, in either case. -/
def hexChar (d : Bool × Fin 16) : Char :=
  (if d.1 then "0123456789ABCDEF" else "0123456789abcdef").toList.getD d.2 '0'

/-- What digits say in hexadecimal. -/
def hexValue (ds : List (Bool × Fin 16)) : Nat :=
  ds.foldl (fun n d => n * 16 + d.2) 0

/-- The ways to write a character inside a string. -/
inductive CharForm : Char → List Char → Prop
  | raw {c : Char} (hquote : c ≠ '"') (hcolon : c ≠ ':') : CharForm c [c]
  | colon : CharForm ':' [':', ':']
  | quote : CharForm '"' [':', '"']
  | line : CharForm '\n' [':', ')']
  | tab : CharForm '\t' [':', '>']
  | bell : CharForm '\x07' [':', 'o']
  | code {c : Char} {ds : List (Bool × Fin 16)} (hne : ds ≠ []) (hvalue : hexValue ds = c.toNat) :
    CharForm c (':' :: '(' :: ds.map hexChar ++ [')'])

/-- The ways to write the inside of a string: the characters of its text one behind another, and
between them the variables, each at the length of the text before it. -/
inductive Quoted : Text → List Insertion → List Char → Prop
  | nil : Quoted [] [] []
  | char {text : Text} {insertions : List Insertion} {inside form : List Char} {c : Char}
    (h : Quoted text insertions inside) (hform : CharForm c form) :
    Quoted (text ++ Text.encodeChar c) insertions (inside ++ form)
  | insertion {text name : Text} {insertions : List Insertion} {inside : List Char}
    (h : Quoted text insertions inside) (hname : isName name = true) :
    Quoted text (insertions ++ [⟨text.length, name, .zero⟩])
      (inside ++ (':' :: '{' :: name.chars ++ ['}']))

end Lexer

def Insertion.unspanned (i : Insertion) : Insertion :=
  { i with span := .zero }

namespace Lexeme

/-- The lexeme without the spans inside it. -/
def unspanned : Lexeme → Lexeme
  | .string text insertions => .string text (insertions.map Insertion.unspanned)
  | l => l

end Lexeme

namespace Lexer

inductive Blank : Text → Prop
  | space : Blank " "
  | tab : Blank "\t"

inductive LineEnd : Text → Prop
  | lf : LineEnd "\n"
  | crlf : LineEnd "\r\n"

/-- A text that no name goes on with. -/
def Detached (t : Text) : Prop :=
  ∀ g ∈ t.glyphs.head?, continuesName g.toChar = false

instance (t : Text) : Decidable (Detached t) :=
  inferInstanceAs (Decidable (∀ g ∈ t.glyphs.head?, continuesName g.toChar = false))

end Lexer

namespace Lexeme

/-- The ways to write a lexeme, without spans. The end of a line may be that of a comment. -/
inductive Spelling : Lexeme → Text → Prop
  | keyword {word : String} {k : Keyword} (h : (word, k) ∈ Keyword.spellings) :
    Spelling (.keyword k word) word
  | identifier {name : Text} (h : name.IsIdentifier) : Spelling (.identifier name) name
  | number {digits : Text} (h : digits.IsNumeral) : Spelling (.number digits) digits
  | string {text : Text} {insertions : List Insertion} {inside : List Char}
    (h : Lexer.Quoted text insertions inside) :
    Spelling (.string text insertions) (Text.ofChars ('"' :: inside ++ ['"']))
  | question : Spelling .question "?"
  | bang : Spelling .bang "!"
  | dot : Spelling .dot "."
  | comma : Spelling .lineBreak ","
  | line {stop : Text} (h : Lexer.LineEnd stop) : Spelling .lineBreak stop
  | remark {blank body stop : Text} (hblank : Lexer.Blank blank) (hfirst : Lexer.Detached body)
    (hbody : 0x0A ∉ body) (hstop : Lexer.LineEnd stop) :
    Spelling .lineBreak (blank ++ "BTW" ++ body ++ stop)

/-- Whether a character would be read as a part of the lexeme in front of it. -/
def absorbs : Lexeme → Char → Bool
  | .identifier _, c | .keyword _ _, c => Lexer.continuesName c
  | .number _, c => Lexer.isDigit c
  | .dot, c => c == '.'
  | .lineBreak, c => c == '\n' || c == '\r'
  | _, _ => false

end Lexeme

namespace Lexer

/-- A token with a lexeme has been read, and some glyphs are left. -/
def Scanned.Reads (l : Lexeme) (rest : List Glyph) (s : Scanned) : Prop :=
  ∃ t pos, s = ⟨.ok t, ⟨pos, rest⟩⟩ ∧ t.lexeme.unspanned = l

variable {file : Int} {start pos : Nat} {text : Text} {insertions : List Insertion} {c : Char}
  {rest tail : List Glyph} {l : Lexeme}

theorem reads_quote [CharNames] :
    (stringBody file start text insertions ⟨pos, .char '"' :: rest⟩).Reads
      (Lexeme.string text insertions).unspanned rest := by
  rw [stringBody]
  exact ⟨_, _, rfl, rfl⟩

/-- What is read behind a character of a string. -/
theorem stringBody_cons [CharNames] (c : Char) (rest : List Glyph) :
    stringBody file start text insertions ⟨pos, .char c :: rest⟩ =
      if c = '"' then
        token file start ((Cursor.mk pos (.char c :: rest)).skip 1) (.string text insertions)
      else if c = ':' then
        match escape file pos ((Cursor.mk pos (.char c :: rest)).skip 1) with
        | .error s => s
        | .ok (.char ch, behind) =>
          stringBody file start (text ++ Text.encodeChar ch) insertions behind
        | .ok (.insertion name, behind) =>
          stringBody file start text
            (insertions ++ [⟨text.length, name, behind.spanFrom file pos⟩]) behind
      else stringBody file start (text ++ Text.encodeChar c) insertions
        ((Cursor.mk pos (.char c :: rest)).skip 1) := by
  rw [stringBody]
  split
  · rename_i h
    cases h
  · rename_i g gs h
    cases h
    simp only [Glyph.toChar, beq_iff_eq]
    split
    · rfl
    · split
      · split
        all_goals
          rename_i heq
          change escape file pos _ = _ at heq
          rewrite [heq]
          rfl
      · rfl

/-- What stands between a mark and the closing one is read as it is. -/
theorem delimited_eq (file : Int) (colon pos : Nat) {closer : Char} {cs : List Char} (g : Glyph)
    (rest : List Glyph) (hcs : ∀ c ∈ cs, (c != closer && c != '"') = true) :
    ∃ pos', delimited file colon closer ⟨pos, g :: (cs.map .char ++ .char closer :: rest)⟩ =
      .ok (Text.ofChars cs, ⟨pos', rest⟩) := by
  obtain ⟨p₁, hinner⟩ := skip_cons pos g (cs.map .char ++ .char closer :: rest)
  have hahead : (Cursor.mk p₁ (cs.map .char ++ .char closer :: rest)).ahead
      (fun ch => ch != closer && ch != '"') = cs.map .char := by
    refine ahead_append (forall_mem_map_char hcs) fun g hg => ?_
    cases hg
    simp [Glyph.toChar]
  obtain ⟨p₂, hpast⟩ := past_append p₁ (cs.map .char) (.char closer :: rest)
  obtain ⟨p₃, hlast⟩ := skip_cons p₂ (.char closer) rest
  have hcloser : (Cursor.mk p₂ (.char closer :: rest)).startsWith [closer] = true := by
    simp [startsWith, Glyph.toChar]
  refine ⟨p₃, ?_⟩
  dsimp only [delimited]
  rw [hinner, hahead, hpast, hcloser, ofGlyphs_map_char, hlast]
  rfl

theorem hexDigit?_hexChar (d : Bool × Fin 16) :
    Text.encodeChar (hexChar d) = [(hexChar d).toNat.toUInt8] ∧
      hexDigit? (hexChar d).toNat.toUInt8 = some d.2.val ∧
      Text.isBlank (hexChar d) = false := by
  obtain ⟨upper, n⟩ := d
  revert upper n
  decide +kernel

/-- A text without white space at its ends is left as it is. -/
private theorem trimmed_ofChars {cs : List Char} (h : ∀ c ∈ cs, Text.isBlank c = false) :
    (Text.ofChars cs).trimmed = Text.ofChars cs := by
  have hkeep (gs : List Glyph) (hgs : ∀ g ∈ gs, Text.blankGlyph g = false) :
      gs.dropWhile Text.blankGlyph = gs := by
    cases gs with
    | nil => rfl
    | cons g gs => exact List.dropWhile_cons_of_neg (Bool.eq_false_iff.1 (hgs g List.mem_cons_self))
  have hglyphs : ∀ g ∈ cs.map Glyph.char, Text.blankGlyph g = false := by
    intro g hg
    obtain ⟨c, hc, rfl⟩ := List.mem_map.1 hg
    exact h c hc
  dsimp only [Text.trimmed]
  rw [Text.glyphs_ofChars, hkeep _ hglyphs, hkeep, List.reverse_reverse, ofGlyphs_map_char]
  exact fun g hg => hglyphs g (List.mem_reverse.1 hg)

private theorem mapM_hexDigit? (ds : List (Bool × Fin 16)) :
    (Text.ofChars (ds.map hexChar)).mapM hexDigit? = some (ds.map fun d => d.2.val) := by
  induction ds with
  | nil => rfl
  | cons d ds ih =>
    obtain ⟨hb, hdigit, -⟩ := hexDigit?_hexChar d
    rw [List.map_cons, Text.ofChars, List.flatMap_cons, hb, List.singleton_append, List.mapM_cons,
      hdigit, ← Text.ofChars, ih]
    rfl

/-- The digits of a code point give its character. -/
private theorem charOfHex?_hexChar {ds : List (Bool × Fin 16)} (hne : ds ≠ [])
    (hvalue : hexValue ds = c.toNat) : charOfHex? (Text.ofChars (ds.map hexChar)) = some c := by
  have hblank : ∀ ch ∈ ds.map hexChar, Text.isBlank ch = false := by
    intro ch hch
    obtain ⟨d, -, rfl⟩ := List.mem_map.1 hch
    exact (hexDigit?_hexChar d).2.2
  have hempty : (ds.map fun d => d.2.val).isEmpty = false := by
    cases ds with
    | nil => exact absurd rfl hne
    | cons d ds => rfl
  have hfold : (ds.map fun d => d.2.val).foldl (fun acc d => acc * 16 + d) 0 = c.toNat := by
    rw [List.foldl_map, ← hvalue]
    rfl
  have hchar : ∀ n, n = c.toNat →
      (if h : n.isValidChar then some (Char.ofNatAux n h) else none) = some c := by
    rintro _ rfl
    exact dif_pos c.valid
  rw [charOfHex?, trimmed_ofChars hblank, mapM_hexDigit?, Option.bind_eq_bind, Option.bind_some,
    hempty]
  exact hchar _ hfold

private theorem inside_hexChar (d : Bool × Fin 16) : (hexChar d != ')' && hexChar d != '"') = true := by
  obtain ⟨upper, n⟩ := d
  revert upper n
  decide +kernel

/-- A character is read back from each of its forms. -/
private theorem reads_form [CharNames] {form : List Char} (hform : CharForm c form)
    (h : ∀ pos, (stringBody file start (text ++ Text.encodeChar c) insertions
      ⟨pos, rest⟩).Reads l tail) :
    (stringBody file start text insertions ⟨pos, form.map .char ++ rest⟩).Reads l tail := by
  cases hform with
  | raw hquote hcolon =>
    rw [List.map_singleton, List.singleton_append, stringBody_cons, if_neg hquote, if_neg hcolon]
    exact h _
  | colon | quote | line | tab | bell =>
    rw [List.map_cons, List.cons_append, stringBody_cons]
    exact h _
  | @code _ ds hne hvalue =>
    have hinside : ∀ ch ∈ ds.map hexChar, (ch != ')' && ch != '"') = true := by
      intro ch hch
      obtain ⟨d, -, rfl⟩ := List.mem_map.1 hch
      exact inside_hexChar d
    obtain ⟨p₁, hskip⟩ := skip_cons pos (.char ':')
      (.char '(' :: ((ds.map hexChar).map .char ++ .char ')' :: rest))
    obtain ⟨p₂, hdelimited⟩ := delimited_eq file pos p₁ (.char '(') rest hinside
    have hescape : escape file pos
        ⟨p₁, .char '(' :: ((ds.map hexChar).map .char ++ .char ')' :: rest)⟩ =
          .ok (.char c, ⟨p₂, rest⟩) := by
      simp only [escape, peek?_cons, Glyph.toChar, hdelimited, bind, Except.bind,
        charOfHex?_hexChar hne hvalue]
    have hglyphs : (':' :: '(' :: ds.map hexChar ++ [')']).map Glyph.char ++ rest =
        .char ':' :: .char '(' :: ((ds.map hexChar).map .char ++ .char ')' :: rest) := by
      simp
    rw [hglyphs, stringBody_cons, hskip, hescape]
    exact h _

theorem mem_chars_of_isName {name : Text} (h : isName name = true) :
    ∀ c ∈ name.chars, continuesName c = true := by
  obtain ⟨c, cs, rfl, hc, hcs⟩ := isName_iff.1 h
  rw [Text.chars_ofChars]
  exact List.forall_mem_cons.2 ⟨continuesName_of_startsName hc, hcs⟩

theorem beq_eq_false_of {p : Char → Bool} {d : Char} (hc : p c = true) (hd : p d = false) :
    (c == d) = false := by
  refine beq_eq_false_iff_ne.2 fun heq => ?_
  rw [heq, hd] at hc
  cases hc

/-- A variable is read back from its form in strings. -/
private theorem reads_insertion [CharNames] {name : Text} (hname : isName name = true)
    (h : ∀ pos span, (stringBody file start text (insertions ++ [⟨text.length, name, span⟩])
      ⟨pos, rest⟩).Reads l tail) :
    (stringBody file start text insertions
      ⟨pos, (':' :: '{' :: name.chars ++ ['}']).map .char ++ rest⟩).Reads l tail := by
  have hinside : ∀ c ∈ name.chars, (c != '}' && c != '"') = true := by
    intro c hc
    have hcontinues := mem_chars_of_isName hname c hc
    rw [bne, bne, beq_eq_false_of hcontinues (by decide), beq_eq_false_of hcontinues (by decide)]
    rfl
  obtain ⟨p₁, hskip⟩ := skip_cons pos (.char ':')
    (.char '{' :: (name.chars.map .char ++ .char '}' :: rest))
  obtain ⟨p₂, hdelimited⟩ := delimited_eq file pos p₁ (.char '{') rest hinside
  rw [Text.ofChars_chars (isUtf8_of_isName hname)] at hdelimited
  have hescape : escape file pos ⟨p₁, .char '{' :: (name.chars.map .char ++ .char '}' :: rest)⟩ =
      .ok (.insertion name, ⟨p₂, rest⟩) := by
    change (do
      let r ← delimited file pos '}' ⟨p₁, _⟩
      if isName r.1 then Except.ok (Escape.insertion r.1, r.2)
      else .error (fault file pos r.2 (.notAVariable r.1))) = _
    rw [hdelimited]
    exact if_pos hname
  have hglyphs : (':' :: '{' :: name.chars ++ ['}']).map Glyph.char ++ rest =
      .char ':' :: .char '{' :: (name.chars.map .char ++ .char '}' :: rest) := by
    simp
  rw [hglyphs, stringBody_cons, hskip, hescape]
  exact h _ _

/-- The inside of a string is read back from each of its forms. -/
theorem reads_quoted [CharNames] {inside : List Char} (h : Quoted text insertions inside)
    (hrest : ∀ pos is, is.map Insertion.unspanned = insertions →
      (stringBody file start text is ⟨pos, rest⟩).Reads l tail) :
    (stringBody file start [] [] ⟨pos, inside.map .char ++ rest⟩).Reads l tail := by
  induction h generalizing pos rest with
  | nil => exact hrest pos [] rfl
  | char h hform ih =>
    rw [List.map_append, List.append_assoc]
    exact ih fun pos is his => reads_form hform fun pos => hrest pos is his
  | insertion h hname ih =>
    rw [List.map_append, List.append_assoc]
    refine ih fun pos is his => reads_insertion hname fun pos span => hrest pos _ ?_
    rw [List.map_append, his]
    rfl

/-- A step that reads a token with a lexeme and leaves some glyphs. -/
def Step.Reads (l : Lexeme) (rest : List Glyph) (s : Step) : Prop :=
  ∃ scanned, s = .item scanned ∧ scanned.Reads l rest

theorem isDigit_of_startsName (hc : startsName c = true) : isDigit c = false := by
  refine Bool.eq_false_iff.2 fun hd => ?_
  simp only [startsName, isDigit, Bool.or_eq_true, Bool.and_eq_true, decide_eq_true_eq, beq_iff_eq,
    Char.le_def, UInt32.le_iff_toNat_le] at hc hd
  have h9 : ('9' : Char).val.toNat = 57 := rfl
  have hA : ('A' : Char).val.toNat = 65 := rfl
  have ha : ('a' : Char).val.toNat = 97 := rfl
  rcases hc with (hc | hc) | rfl
  · omega
  · omega
  · exact absurd hd.2 (by decide)

/-- A character that starts a name starts nothing else. -/
private theorem step_startsName [CharNames] (hc : startsName c = true) :
    step file ⟨pos, .char c :: rest⟩ = named file ⟨pos, .char c :: rest⟩ := by
  have hne {d : Char} (hd : startsName d = false) : (c == d) = false := beq_eq_false_of hc hd
  have hellipsis : (Cursor.mk pos (.char c :: rest)).startsWith ['.', '.', '.'] = false :=
    startsWith_eq_false (hne (by decide))
  simp only [step, peek?_cons, Glyph.toChar, isGap, hellipsis, isDigit_of_startsName hc, hc,
    hne (d := ' ') (by decide), hne (d := '\t') (by decide), hne (d := '\r') (by decide),
    hne (d := '\n') (by decide), hne (d := ',') (by decide), hne (d := '?') (by decide),
    hne (d := '!') (by decide), hne (d := '…') (by decide), hne (d := '.') (by decide),
    hne (d := '"') (by decide), hne (d := '-') (by decide)]
  rfl

/-- A word is read up to the first character that it does not go on with. -/
theorem step_word [CharNames] (file : Int) (pos : Nat) (name : Text) (hname : isName name = true)
    (hrest : ∀ g ∈ rest.head?, continuesName g.toChar = false) :
    ∃ pos', step file ⟨pos, name.glyphs ++ rest⟩ =
      if name == "BTW" then .gap (skipLineComment ⟨pos', rest⟩)
      else if name == "OBTW" then .gap (skipBlockComment ⟨pos', rest⟩)
      else .item (word file pos ⟨pos', rest⟩ name) := by
  have hglyphs := Text.glyphs_of_isUtf8 (isUtf8_of_isName hname)
  have hinside := forall_mem_map_char (mem_chars_of_isName hname)
  rw [hglyphs]
  obtain ⟨pos', hskip⟩ := skipWhile_append pos hinside hrest
  have hahead : Text.ofGlyphs ((Cursor.mk pos (name.chars.map .char ++ rest)).ahead
      continuesName) = name := by
    rw [ahead_append hinside hrest, ← hglyphs, Text.ofGlyphs_glyphs]
  have hstep : step file ⟨pos, name.chars.map .char ++ rest⟩ =
      named file ⟨pos, name.chars.map .char ++ rest⟩ := by
    obtain ⟨c, cs, rfl, hc, -⟩ := isName_iff.1 hname
    rw [Text.chars_ofChars]
    exact step_startsName hc
  refine ⟨pos', ?_⟩
  rw [hstep]
  dsimp only [named]
  rw [hahead, hskip]

theorem reads_identifier [CharNames] {name : Text} (hname : name.IsIdentifier)
    (hrest : ∀ g ∈ rest.head?, continuesName g.toChar = false) :
    (step file ⟨pos, name.glyphs ++ rest⟩).Reads (.identifier name) rest := by
  obtain ⟨pos', hstep⟩ := step_word file pos name hname.name hrest
  rw [if_neg (mt beq_iff_eq.1 hname.lineComment), if_neg (mt beq_iff_eq.1 hname.blockComment)] at hstep
  refine ⟨_, hstep, ?_⟩
  rw [word, hname.free]
  exact ⟨_, _, rfl, rfl⟩

private theorem spelled_all : (Keyword.spellings.all fun e =>
    isName (Text.ofString e.1) && Keyword.ofWord? (Text.ofString e.1) == some e.2 &&
      !(Text.ofString e.1 == "BTW") && !(Text.ofString e.1 == "OBTW")) = true := by
  decide +kernel

/-- A reserved word is a name and no mark of a comment. -/
theorem spelled_word {w : String} {k : Keyword} (h : (w, k) ∈ Keyword.spellings) :
    isName (Text.ofString w) = true ∧ Keyword.ofWord? (Text.ofString w) = some k ∧
      (Text.ofString w == "BTW") = false ∧ (Text.ofString w == "OBTW") = false := by
  have hw := List.all_eq_true.1 spelled_all _ h
  rw [Bool.and_eq_true, Bool.and_eq_true, Bool.and_eq_true, Bool.not_eq_true', Bool.not_eq_true']
    at hw
  obtain ⟨⟨⟨hname, hword⟩, hline⟩, hblock⟩ := hw
  exact ⟨hname, eq_of_beq hword, hline, hblock⟩

theorem reads_keyword [CharNames] {w : String} {k : Keyword} (h : (w, k) ∈ Keyword.spellings)
    (hrest : ∀ g ∈ rest.head?, continuesName g.toChar = false) :
    (step file ⟨pos, (Text.ofString w).glyphs ++ rest⟩).Reads (.keyword k w) rest := by
  obtain ⟨hname, hword, hline, hblock⟩ := spelled_word h
  obtain ⟨pos', hstep⟩ := step_word file pos w hname hrest
  rw [hline, hblock, if_neg Bool.false_ne_true, if_neg Bool.false_ne_true] at hstep
  refine ⟨_, hstep, ?_⟩
  rw [word, hword]
  exact ⟨_, _, rfl, rfl⟩

/-- A line end is one token with those that follow it, so none may follow. -/
theorem reads_lineEnd [CharNames] {stop : Text} (hstop : LineEnd stop)
    (hrest : ∀ g ∈ rest.head?, Lexeme.lineBreak.absorbs g.toChar = false) :
    (step file ⟨pos, stop.glyphs ++ rest⟩).Reads .lineBreak rest := by
  have hbreaks (pos : Nat) : skipBreaks.go pos rest = ⟨pos, rest⟩ := by
    unfold skipBreaks.go
    split
    · exact absurd (hrest _ rfl) (by decide)
    · exact absurd (hrest _ rfl) (by decide)
    · rfl
  cases hstop with
  | lf => exact ⟨_, rfl, ⟨.lineBreak, ⟨pos, pos + 1, file⟩⟩, pos + 1,
      congrArg (Scanned.mk _) (hbreaks (pos + 1)), rfl⟩
  | crlf => exact ⟨_, rfl, ⟨.lineBreak, ⟨pos, pos + 1, file⟩⟩, pos + 2,
      congrArg (Scanned.mk _) (hbreaks (pos + 2)), rfl⟩

theorem reads_dot [CharNames] (h : ∀ g ∈ rest.head?, Lexeme.dot.absorbs g.toChar = false) :
    (step file ⟨pos, .char '.' :: rest⟩).Reads .dot rest := by
  have hellipsis : (Cursor.mk pos (.char '.' :: rest)).startsWith ['.', '.', '.'] = false := by
    cases rest with
    | nil => rfl
    | cons g rest =>
      have hg : g.toChar ≠ '.' := beq_eq_false_iff_ne.1 (h g rfl)
      simp [startsWith, hg]
  simp only [step, peek?_cons, Glyph.toChar, hellipsis]
  exact ⟨_, rfl, _, _, rfl, rfl⟩

/-- Digits are read up to the first character that is none. -/
private theorem reads_digits (sign : Text) {ds : List Char} (hds : ∀ d ∈ ds, isDigit d = true)
    (hrest : ∀ g ∈ rest.head?, isDigit g.toChar = false) :
    (number file start sign ⟨pos, ds.map .char ++ rest⟩).Reads (.number (sign ++ Text.ofChars ds))
      rest := by
  have hglyphs := forall_mem_map_char hds
  obtain ⟨pos', hskip⟩ := skipWhile_append pos hglyphs hrest
  rw [number, hskip, ahead_append hglyphs hrest, ofGlyphs_map_char]
  exact ⟨_, _, rfl, rfl⟩

private theorem step_digit [CharNames] (hc : isDigit c = true) :
    step file ⟨pos, .char c :: rest⟩ = .item (number file pos [] ⟨pos, .char c :: rest⟩) := by
  have hne {d : Char} (hd : isDigit d = false) : (c == d) = false := beq_eq_false_of hc hd
  have hellipsis : (Cursor.mk pos (.char c :: rest)).startsWith ['.', '.', '.'] = false :=
    startsWith_eq_false (hne (by decide))
  simp only [step, peek?_cons, Glyph.toChar, isGap, hellipsis, hc,
    hne (d := ' ') (by decide), hne (d := '\t') (by decide), hne (d := '\r') (by decide),
    hne (d := '\n') (by decide), hne (d := ',') (by decide), hne (d := '?') (by decide),
    hne (d := '!') (by decide), hne (d := '…') (by decide), hne (d := '.') (by decide),
    hne (d := '"') (by decide), hne (d := '-') (by decide)]
  rfl

theorem reads_number [CharNames] {digits : Text} (h : digits.IsNumeral)
    (hrest : ∀ g ∈ rest.head?, isDigit g.toChar = false) :
    (step file ⟨pos, digits.glyphs ++ rest⟩).Reads (.number digits) rest := by
  obtain ⟨sign, ds, hsign, hne, hds, rfl⟩ := h
  cases ds with
  | nil => exact absurd rfl hne
  | cons d ds =>
    have hd : isDigit d = true := hds d List.mem_cons_self
    rcases hsign with rfl | rfl
    · rw [List.nil_append, Text.glyphs_ofChars, List.map_cons, List.cons_append, step_digit hd]
      exact ⟨_, rfl, reads_digits [] hds hrest⟩
    · have hglyphs : (Text.ofString "-" ++ Text.ofChars (d :: ds)).glyphs ++ rest =
          .char '-' :: ((d :: ds).map .char ++ rest) := by
        rw [Text.ofString, Text.glyphs_ofChars_append, Text.glyphs_ofChars]
        rfl
      obtain ⟨pos', hskip⟩ := skip_cons pos (.char '-') ((d :: ds).map .char ++ rest)
      have hstep : step file ⟨pos, .char '-' :: ((d :: ds).map .char ++ rest)⟩ =
          .item (number file pos "-" ⟨pos', (d :: ds).map .char ++ rest⟩) := by
        have hany : (Option.any isDigit
            ((Cursor.mk pos' ((d :: ds).map .char ++ rest)).peek? 0)) = true := hd
        change (if (((Cursor.mk pos (.char '-' :: ((d :: ds).map .char ++ rest))).skip 1).peek? 0).any
          isDigit then _ else _) = _
        rw [hskip, if_pos hany]
      rw [hglyphs, hstep]
      exact ⟨_, rfl, reads_digits _ hds hrest⟩

theorem reads_string [CharNames] {inside : List Char} (h : Quoted text insertions inside) :
    (step file ⟨pos, (Text.ofChars ('"' :: inside ++ ['"'])).glyphs ++ rest⟩).Reads
      (.string text insertions) rest := by
  obtain ⟨pos', hskip⟩ := skip_cons pos (.char '"') (inside.map .char ++ .char '"' :: rest)
  have hreads : (stringBody file pos [] []
      ⟨pos', inside.map .char ++ .char '"' :: rest⟩).Reads (.string text insertions) rest :=
    reads_quoted h fun pos is his => his ▸ reads_quote
  have hglyphs : (Text.ofChars ('"' :: inside ++ ['"'])).glyphs ++ rest =
      .char '"' :: (inside.map .char ++ .char '"' :: rest) := by
    rw [Text.glyphs_ofChars]
    simp
  refine ⟨_, ?_, hreads⟩
  rw [hglyphs, ← hskip]
  rfl

theorem step_blank [CharNames] (file : Int) {blank : Text} (h : Blank blank) (pos : Nat)
    (rest : List Glyph) : ∃ pos', step file ⟨pos, blank.glyphs ++ rest⟩ = .gap ⟨pos', rest⟩ := by
  cases h <;> exact ⟨_, rfl⟩

/-- A comment is passed over up to the end of its line. A carriage return at its end belongs to the line
end behind it. -/
theorem skipLineComment_append {gs : List Glyph} (hgs : .char '\n' ∉ gs) {stop : Text}
    (hstop : LineEnd stop) (pos : Nat) (rest : List Glyph) :
    ∃ (pos' : Nat) (stop' : Text), LineEnd stop' ∧
      skipLineComment.go pos (gs ++ (stop.glyphs ++ rest)) = ⟨pos', stop'.glyphs ++ rest⟩ := by
  induction gs generalizing pos with
  | nil =>
    cases hstop with
    | lf => exact ⟨pos, "\n", .lf, rfl⟩
    | crlf => exact ⟨pos, "\r\n", .crlf, rfl⟩
  | cons g gs ih =>
    have htail : .char '\n' ∉ gs := fun h => hgs (List.mem_cons_of_mem g h)
    rw [List.cons_append]
    unfold skipLineComment.go
    split
    · rename_i heq
      cases heq
    · rename_i heq
      obtain ⟨rfl, -⟩ := List.cons.inj heq
      exact absurd List.mem_cons_self hgs
    · rename_i rest' heq
      obtain ⟨rfl, hbehind⟩ := List.cons.inj heq
      cases gs with
      | cons g gs =>
        obtain ⟨rfl, -⟩ := List.cons.inj hbehind
        exact absurd List.mem_cons_self htail
      | nil =>
        cases hstop with
        | lf =>
          obtain rfl : rest = rest' := (List.cons.inj hbehind).2
          exact ⟨pos, "\r\n", .crlf, rfl⟩
        | crlf => cases (List.cons.inj hbehind).1
    · rename_i heq
      obtain ⟨rfl, rfl⟩ := List.cons.inj heq
      exact ih htail _

/-- A comment that ends with TLDR is passed over up to there. -/
theorem skipBlockComment_append {gs : List Glyph}
    (hgs : ¬[.char 'T', .char 'L', .char 'D', .char 'R'] <:+: gs) (pos : Nat) (rest : List Glyph) :
    ∃ pos', skipBlockComment.go pos
      (gs ++ .char 'T' :: .char 'L' :: .char 'D' :: .char 'R' :: rest) = ⟨pos', rest⟩ := by
  induction gs generalizing pos with
  | nil => exact ⟨pos + 4, rfl⟩
  | cons g gs ih =>
    have htail : ¬[.char 'T', .char 'L', .char 'D', .char 'R'] <:+: gs :=
      fun h => hgs (h.trans (List.suffix_cons g gs).isInfix)
    rw [List.cons_append]
    unfold skipBlockComment.go
    split
    · rename_i heq
      cases heq
    -- The mark has no part at its start that is also one at its end, so it begins nowhere before.
    · rename_i heq
      rcases gs with - | ⟨g₁, - | ⟨g₂, - | ⟨g₃, gs⟩⟩⟩ <;>
        simp only [List.nil_append, List.cons_append, List.cons.injEq, Glyph.char.injEq] at heq
      · exact absurd heq.2.1 (by decide)
      · exact absurd heq.2.2.1 (by decide)
      · exact absurd heq.2.2.2.1 (by decide)
      · obtain ⟨rfl, rfl, rfl, rfl, -⟩ := heq
        exact absurd ⟨[], gs, rfl⟩ hgs
    · rename_i heq
      obtain ⟨rfl, rfl⟩ := List.cons.inj heq
      exact ih htail _

theorem itemsFrom_eq_match [CharNames] (file : Int) (size : Nat) (cursor : Cursor) :
    itemsFrom file size cursor = match step file cursor with
      | .stop => [.ok ⟨.endOfInput, ⟨size, size, file⟩⟩]
      | .gap next => itemsFrom file size next
      | .item s => s.item :: itemsFrom file size s.next := by
  rw [itemsFrom]
  split <;> simp only [*]

/-- From a place on, a token with a lexeme is the first item, and reading goes on with some glyphs. -/
def Finds [CharNames] (file : Int) (size : Nat) (l : Lexeme) (rest : List Glyph) (cursor : Cursor) :
    Prop :=
  ∃ t pos, t.lexeme.unspanned = l ∧
    itemsFrom file size cursor = .ok t :: itemsFrom file size ⟨pos, rest⟩

variable {size : Nat} {cursor : Cursor}

theorem finds_of_reads [CharNames] (h : (step file cursor).Reads l rest) :
    Finds file size l rest cursor := by
  obtain ⟨scanned, hstep, t, pos', rfl, hlexeme⟩ := h
  refine ⟨t, pos', hlexeme, ?_⟩
  rw [itemsFrom_eq_match, hstep]

theorem itemsFrom_of_gap [CharNames] {cursor' : Cursor} (h : step file cursor = .gap cursor') :
    itemsFrom file size cursor = itemsFrom file size cursor' := by
  rw [itemsFrom_eq_match, h]

private theorem Finds.before [CharNames] {cursor' : Cursor}
    (hitems : itemsFrom file size cursor = itemsFrom file size cursor')
    (h : Finds file size l rest cursor') : Finds file size l rest cursor := by
  obtain ⟨t, pos', hlexeme, hrest⟩ := h
  exact ⟨t, pos', hlexeme, hitems.trans hrest⟩

theorem Blank.closed {blank : Text} (h : Blank blank) : blank.IsClosed := by
  cases h <;> exact Text.closed_ofChars _

theorem LineEnd.exists_chars {stop : Text} (h : LineEnd stop) : ∃ c cs, stop = Text.ofChars (c :: cs) ∧
    continuesName c = false := by
  cases h with
  | lf => exact ⟨'\n', [], rfl, rfl⟩
  | crlf => exact ⟨'\r', ['\n'], rfl, rfl⟩

private theorem not_mem_glyphs {body : Text} (h : 0x0A ∉ body) : .char '\n' ∉ body.glyphs := by
  intro hmem
  refine h ?_
  rw [← Text.ofGlyphs_glyphs body]
  exact List.mem_flatMap.2 ⟨_, hmem, List.mem_singleton.2 rfl⟩

/-- The end of a line is found behind a comment. -/
private theorem finds_remark [CharNames] {blank body stop : Text} (hblank : Blank blank)
    (hfirst : Detached body) (hbody : 0x0A ∉ body) (hstop : LineEnd stop)
    (hrest : ∀ g ∈ rest.head?, Lexeme.lineBreak.absorbs g.toChar = false) :
    Finds file size .lineBreak rest ⟨pos, Text.glyphs (blank ++ "BTW" ++ body ++ stop) ++ rest⟩ := by
  obtain ⟨c, cs, hchars, hc⟩ := hstop.exists_chars
  have hglyphs : Text.glyphs (blank ++ "BTW" ++ body ++ stop) ++ rest =
      blank.glyphs ++ (Text.glyphs "BTW" ++ (body.glyphs ++ (stop.glyphs ++ rest))) := by
    have hend := Text.glyphs_append_ofChars body c cs []
    rw [List.append_nil, ← hchars] at hend
    rw [List.append_assoc, List.append_assoc, hblank.closed, Text.closed_ofString, hend]
    simp only [List.append_assoc]
  obtain ⟨p₁, hgap⟩ := step_blank file hblank pos
    (Text.glyphs "BTW" ++ (body.glyphs ++ (stop.glyphs ++ rest)))
  have hbehind : ∀ g ∈ (body.glyphs ++ (stop.glyphs ++ rest)).head?,
      continuesName g.toChar = false := by
    intro g hg
    cases hglyph : body.glyphs with
    | nil =>
      rw [hglyph, hchars, Text.glyphs_ofChars] at hg
      cases hg
      exact hc
    | cons g' gs =>
      rw [hglyph] at hg
      cases hg
      exact hfirst g (by rw [hglyph]; rfl)
  obtain ⟨p₂, hword⟩ := step_word file p₁ "BTW" (by decide) hbehind
  obtain ⟨p₃, stop', hstop', hcomment⟩ := skipLineComment_append (not_mem_glyphs hbody) hstop p₂ rest
  have hskip : skipLineComment ⟨p₂, body.glyphs ++ (stop.glyphs ++ rest)⟩ =
      ⟨p₃, stop'.glyphs ++ rest⟩ := hcomment
  rw [if_pos (by decide), hskip] at hword
  rw [hglyphs]
  exact ((finds_of_reads (reads_lineEnd hstop' hrest)).before (itemsFrom_of_gap hword)).before
    (itemsFrom_of_gap hgap)

/-- A lexeme is found from each of its spellings, if what stands behind it is not a part of it. -/
theorem finds_spelling [CharNames] {t : Text} (h : l.Spelling t)
    (hrest : ∀ g ∈ rest.head?, l.absorbs g.toChar = false) :
    Finds file size l rest ⟨pos, t.glyphs ++ rest⟩ := by
  cases h with
  | keyword h => exact finds_of_reads (reads_keyword h hrest)
  | identifier h => exact finds_of_reads (reads_identifier h hrest)
  | number h => exact finds_of_reads (reads_number h hrest)
  | string h => exact finds_of_reads (reads_string h)
  | question | bang | comma => exact finds_of_reads ⟨_, rfl, _, _, rfl, rfl⟩
  | dot => exact finds_of_reads (reads_dot hrest)
  | line h => exact finds_of_reads (reads_lineEnd h hrest)
  | remark hblank hfirst hbody hstop => exact finds_remark hblank hfirst hbody hstop hrest

end Lexer

end LolToolchain
