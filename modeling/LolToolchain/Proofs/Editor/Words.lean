import LolToolchain.Editor.Session
import LolToolchain.Proofs.Source.Positions
import LolToolchain.Proofs.Token.Borders
import LolToolchain.Proofs.Token.Items
import LolToolchain.Text.CommonNames

/-!
The words of an editor and the identifiers of the lexer. Places count the characters of a line but
words are cut out byte by byte, and a word is all letters, digits and `_` in a row, while an
identifier may have a number, the end of a comment or an ellipsis right beside it. Where characters
are bytes and none of these is in the way, the word at each place of an identifier is the
identifier.
-/
namespace LolToolchain

namespace Text

theorem splitOn_eq (sep : UInt8) (t : Text) : splitOn sep t = List.splitOn sep t := by
  rw [List.splitOn_eq_splitOnP]
  induction t with
  | nil => rfl
  | cons b t ih =>
    rw [List.splitOnP_cons_eq_if_modifyHead, ← ih, splitOn]
    by_cases hb : b = sep
    · rw [if_pos hb, if_pos (beq_iff_eq.2 hb)]
    · rw [if_neg hb, if_neg fun h => hb (beq_iff_eq.1 h)]
      obtain ⟨piece, rest, hpieces⟩ := List.exists_cons_of_ne_nil
        (ih ▸ List.splitOnP_ne_nil (· == sep) t)
      rw [hpieces]
      rfl

theorem charCount_of_ascii {t : Text} (h : ∀ b ∈ t, b < 0x80) : charCount t = t.length := by
  induction t with
  | nil => rfl
  | cons b t ih =>
    obtain ⟨hb, ht⟩ := List.forall_mem_cons.1 h
    have hglyphs : glyphs (b :: t) = .char (Char.ofNat b.toNat) :: glyphs t := by
      rw [glyphs, List.foldr_cons, Glyph.attach.eq_def, if_pos hb]
      rfl
    rw [charCount, hglyphs]
    exact congrArg (· + 1) (ih ht)

end Text

theorem IsAscii.isWordByte {c : Char} (h : IsAscii c) :
    Editor.isWordByte c.toNat.toUInt8 = Lexer.continuesName c := by
  have hall : ∀ n < 0x80,
      Editor.isWordByte n.toUInt8 = Lexer.continuesName (Char.ofNat n) := by decide
  rw [hall c.toNat h, Char.ofNat_toNat]

namespace Editor

open Text

variable {s : Source} {u w before behind : Text} {cs : List Char} {k : Nat}

theorem isWordByte_name (h : ∀ c ∈ cs, Lexer.continuesName c = true) :
    ∀ b ∈ ofChars cs, isWordByte b = true := by
  intro b hb
  rw [ofChars_name h] at hb
  obtain ⟨c, hc, rfl⟩ := List.mem_map.1 hb
  rw [(IsAscii.of_continuesName (h c hc)).isWordByte]
  exact h c hc

theorem isWordByte_lineEnd : isWordByte 0x0A = false := by decide

/-- No word goes beyond the start of its line. -/
theorem rtakeWhile_line (hu : u.EndsLine) :
    (u ++ w).rtakeWhile isWordByte = w.rtakeWhile isWordByte := by
  induction w using List.reverseRecOn with
  | nil =>
    rw [List.append_nil]
    obtain rfl | ⟨u, rfl⟩ := hu
    · rfl
    · exact List.rtakeWhile_concat_neg _ _ _ (Bool.eq_false_iff.1 isWordByte_lineEnd)
  | append_singleton w b ih =>
    rw [← List.append_assoc, List.rtakeWhile_concat, List.rtakeWhile_concat, ih]

/-- Nor beyond its end. -/
theorem takeWhile_line {after : Text} (hafter : after = [] ∨ ∃ rest, after = 0x0A :: rest) :
    (w ++ after).takeWhile isWordByte = w.takeWhile isWordByte := by
  induction w with
  | nil =>
    obtain rfl | ⟨rest, rfl⟩ := hafter
    · rfl
    · rfl
  | cons b w ih => rw [List.cons_append, List.takeWhile_cons, List.takeWhile_cons, ih]

theorem rtakeWhile_append {t : Text} (h : ∀ b ∈ t, isWordByte b = true) :
    (w ++ t).rtakeWhile isWordByte = w.rtakeWhile isWordByte ++ t := by
  rw [List.rtakeWhile, List.reverse_append,
    List.takeWhile_append_of_pos fun b hb => h b (List.mem_reverse.1 hb), List.reverse_append,
    List.reverse_reverse, List.rtakeWhile]

private theorem splitAt?_line {v after : Text} (hu : u.EndsLine) (hline : 0x0A ∉ w ++ v)
    (hafter : after = [] ∨ ∃ rest, after = 0x0A :: rest) :
    splitAt? (u ++ (w ++ v ++ after)) ⟨u.count 0x0A, w.length⟩ = some (w, v) := by
  obtain ⟨ps, hps⟩ := pieces_append_line hline hafter
  rw [splitAt?, splitOn_eq, getElem?_pieces_append hu, hps]
  exact congrArg some (Prod.ext List.take_left List.drop_left)

section Name

variable (htext : s.text = before ++ (ofChars cs ++ behind))
  (hcs : ∀ c ∈ cs, Lexer.continuesName c = true)
  (hcolumns : charCount (lastLine before) = (lastLine before).length) (hk : k ≤ cs.length)

include hcs in
theorem not_mem_name : 0x0A ∉ ofChars cs :=
  fun hmem => Bool.false_ne_true (isWordByte_lineEnd.symm.trans (isWordByte_name hcs _ hmem))

include hcs hk in
theorem length_take_name : (ofChars (cs.take k)).length = k := by
  rw [ofChars_name fun c hc => hcs c (List.mem_of_mem_take hc), List.length_map,
    List.length_take, Nat.min_eq_left hk]

theorem take_append_drop_name (cs : List Char) (k : Nat) :
    ofChars (cs.take k) ++ ofChars (cs.drop k) = ofChars cs := by
  rw [← ofChars_append, List.take_append_drop]

include htext hcs hcolumns hk in
/-- Where each character of the line in front of a name is one byte, places in it count bytes. -/
private theorem placeOf_name :
    placeOf s (before.length + k : Nat) = ⟨before.count 0x0A, (lastLine before).length + k⟩ := by
  have htake : ∀ c ∈ cs.take k, Lexer.continuesName c = true := fun c hc =>
    hcs c (List.mem_of_mem_take hc)
  have hlength := length_take_name hcs hk
  have hup : s.text.take (s.clamp (before.length + k : Nat)) = before ++ ofChars (cs.take k) := by
    have hsplit : s.text = before ++ ofChars (cs.take k) ++ (ofChars (cs.drop k) ++ behind) := by
      rw [htext, ← take_append_drop_name cs k, List.append_assoc, List.append_assoc]
    have hclamp : s.clamp (before.length + k : Nat) = (before ++ ofChars (cs.take k)).length := by
      rw [Source.clamp, Int.toNat_natCast, hsplit]
      simp only [List.length_append, hlength]
      omega
    rw [hclamp, hsplit, List.take_left]
  rw [placeOf, Source.position_eq, hup, lastLine_append_line before (not_mem_name htake),
    charCount_append_ofChars, hcolumns, List.count_append,
    List.count_eq_zero.2 (not_mem_name htake), List.length_take, Nat.min_eq_left hk]
  simp only [Nat.add_zero, Nat.add_sub_cancel_left]

include htext hcs hcolumns hk in
/-- The words around the places of a name: it with all that it runs together with. -/
theorem words_name :
    wordBefore s.text (placeOf s (before.length + k : Nat)) =
        before.rtakeWhile isWordByte ++ ofChars (cs.take k) ∧
      wordAt s.text (placeOf s (before.length + k : Nat)) =
        before.rtakeWhile isWordByte ++ (ofChars cs ++ behind.takeWhile isWordByte) := by
  have htake : ∀ c ∈ cs.take k, Lexer.continuesName c = true := fun c hc =>
    hcs c (List.mem_of_mem_take hc)
  have hdrop : ∀ c ∈ cs.drop k, Lexer.continuesName c = true := fun c hc =>
    hcs c (List.mem_of_mem_drop hc)
  have hplace := placeOf_name htext hcs hcolumns hk
  obtain ⟨u, hbefore, hu, hcount⟩ := exists_lastLine before
  obtain ⟨v, after, rfl, hv, hafter⟩ := exists_lineEnd behind
  have hnone := not_mem_lastLine before
  generalize lastLine before = w at *
  subst hbefore
  have hline : 0x0A ∉ (w ++ ofChars (cs.take k)) ++ (ofChars (cs.drop k) ++ v) := by
    simp only [List.mem_append, not_or]
    exact ⟨⟨hnone, not_mem_name htake⟩, not_mem_name hdrop, hv⟩
  have hsplit : splitAt? s.text (placeOf s ((u ++ w).length + k : Nat)) =
      some (w ++ ofChars (cs.take k), ofChars (cs.drop k) ++ v) := by
    have hwhole : s.text =
        u ++ ((w ++ ofChars (cs.take k)) ++ (ofChars (cs.drop k) ++ v) ++ after) := by
      rw [htext, ← take_append_drop_name cs k]
      simp only [List.append_assoc]
    rw [hplace, ← hcount, ← length_take_name hcs hk, ← List.length_append, length_take_name hcs hk,
      hwhole]
    exact splitAt?_line hu hline hafter
  have hword : wordBefore s.text (placeOf s ((u ++ w).length + k : Nat)) =
      (u ++ w).rtakeWhile isWordByte ++ ofChars (cs.take k) := by
    rw [wordBefore, hsplit, rtakeWhile_line hu]
    exact rtakeWhile_append (isWordByte_name htake)
  refine ⟨hword, ?_⟩
  rw [wordAt, hsplit, hword, takeWhile_line hafter]
  dsimp only
  rw [List.takeWhile_append_of_pos (isWordByte_name hdrop), List.append_assoc,
    ← List.append_assoc (ofChars _), take_append_drop_name]

end Name

/-- A text that ends with a digit or with the word that ends a comment. -/
def Touches (t : Text) : Prop :=
  (∃ d, Lexer.isDigit d = true ∧ encodeChar d <:+ t) ∨ ofString "TLDR" <:+ t

theorem rtakeWhile_ne_nil {t : Text} (h : Touches t) : t.rtakeWhile isWordByte ≠ [] := by
  obtain ⟨t, b, rfl, hb⟩ : ∃ (u : Text) (b : UInt8), t = u ++ [b] ∧ isWordByte b = true := by
    rcases h with ⟨d, hd, u, rfl⟩ | ⟨u, rfl⟩
    · have hname := Lexer.continuesName_of_isDigit hd
      have hascii := IsAscii.of_continuesName hname
      exact ⟨u, _, congrArg _ hascii.encodeChar, hascii.isWordByte.trans hname⟩
    · have hlast : ofString "TLDR" = ofString "TLD" ++ [0x52] := by decide
      exact ⟨u ++ ofString "TLD", 0x52, by rw [hlast, List.append_assoc], by decide⟩
  rw [List.rtakeWhile_concat_pos _ _ _ hb]
  exact List.append_ne_nil_of_right_ne_nil _ (List.cons_ne_nil _ _)

/-- Of what can stand in front of a name, only digits and ends of comments are parts of words. -/
private theorem rtakeWhile_front {t : Text} (h : Front t) : t.rtakeWhile isWordByte = [] ↔ ¬Touches t := by
  refine ⟨fun hnil ht => rtakeWhile_ne_nil ht hnil, fun ht => ?_⟩
  cases h with
  | nil => rfl
  | @sign u ch hascii hch =>
    rw [hascii.encodeChar]
    refine List.rtakeWhile_concat_neg _ _ _ fun hword => ht (.inl ⟨ch, ?_, List.suffix_append u _⟩)
    rw [hascii.isWordByte, Lexer.continuesName, hch, Bool.false_or] at hword
    exact hword
  | comment u => exact absurd (.inr (List.suffix_append u _)) ht

/-- Of what can stand behind a name, only ellipses start with bytes of words. -/
private theorem takeWhile_back {gs : List Glyph} (h : Glyph.Back gs) :
    (ofGlyphs gs).takeWhile isWordByte = [] ↔ ¬ofString "…" <+: ofGlyphs gs := by
  constructor
  · rintro hnil ⟨rest, hrest⟩
    rw [← hrest] at hnil
    cases hnil
  · intro hellipsis
    cases gs with
    | nil => rfl
    | cons g gs =>
      obtain ⟨ch, rfl, hname, hascii | rfl⟩ := h g rfl
      · rw [ofGlyphs, List.flatMap_cons, Glyph.bytes, hascii.encodeChar]
        exact List.takeWhile_cons_of_neg (Bool.eq_false_iff.1 (hascii.isWordByte.trans hname))
      · exact absurd (List.prefix_append _ _) hellipsis

private theorem append_append_eq_self {x y z : Text} : x ++ (y ++ z) = y ↔ x = [] ∧ z = [] := by
  constructor
  · intro h
    have hlength := congrArg List.length h
    simp only [List.length_append] at hlength
    exact ⟨List.eq_nil_of_length_eq_zero (by omega), List.eq_nil_of_length_eq_zero (by omega)⟩
  · rintro ⟨rfl, rfl⟩
    exact List.append_nil y

/-- The columns in front of a text of a line count bytes. -/
def Columns (before : Text) : Prop :=
  charCount (lastLine before) = (lastLine before).length

private theorem columns_of_ascii (h : ∀ b ∈ lastLine before, b < 0x80) : Columns before :=
  charCount_of_ascii h

/-- In a source without faults where the columns in front of an identifier count bytes, the word
before its end is the identifier exactly if neither a number nor the end of a comment touches it,
and the word around each of its places exactly if also no ellipsis stands right behind it. -/
theorem words_of_identifier [CharNames] (s : Source) {file : Int} {t : Token} {name : Text}
    (hfree : Lexer.Faultless (Token.items file s.text)) (ht : .ok t ∈ Token.items file s.text)
    (hname : t.lexeme = .identifier name) (hcolumns : Columns (s.text.take t.span.start.toNat)) :
    (wordBefore s.text (placeOf s t.span.stop) = name ↔
      ¬Touches (s.text.take t.span.start.toNat)) ∧
    ∀ o : Int, t.span.start ≤ o → o < t.span.stop →
      (wordAt s.text (placeOf s o) = name ↔ ¬Touches (s.text.take t.span.start.toNat) ∧
        ¬ofString "…" <+: s.text.drop t.span.stop.toNat) := by
  obtain ⟨before, cs, behind, hborders, rfl, hspan⟩ := Token.exists_borders hfree ht hname
  have hlength : (ofChars cs).length = cs.length := by
    rw [ofChars_name hborders.continues, List.length_map]
  have hfront : s.text.take t.span.start.toNat = before := by
    rw [hspan, Int.toNat_natCast, hborders.text, List.take_left]
  have hback : s.text.drop t.span.stop.toNat = ofGlyphs behind := by
    rw [hspan, Int.toNat_natCast, hborders.text, ← List.append_assoc, ← hlength,
      ← List.length_append, List.drop_left]
  rw [hfront] at hcolumns ⊢
  rw [hback, ← rtakeWhile_front hborders.front, ← takeWhile_back hborders.back, hspan]
  have hwords {k : Nat} (hk : k ≤ cs.length) :=
    words_name hborders.text hborders.continues hcolumns hk
  dsimp only
  refine ⟨?_, fun o hlo hhi => ?_⟩
  · rw [(hwords (Nat.le_refl _)).1, List.take_length]
    exact List.append_left_eq_self
  · obtain ⟨k, rfl⟩ : ∃ k : Nat, o = (before.length + k : Nat) :=
      ⟨(o - before.length).toNat, by omega⟩
    rw [(hwords (by omega)).2]
    exact append_append_eq_self

/-- The token of the three letters of `cat` from an offset on. -/
def catAt (start : Nat) : Token :=
  ⟨.identifier "cat", ⟨start, start + 3, 0⟩⟩

/-- An identifier behind a tab. -/
def tabbed : Source :=
  ⟨[], "\tcat?"⟩

attribute [local instance] CharNames.common

theorem words_of_identifier_tabbed :
    Lexer.Faultless (Token.items 0 tabbed.text) ∧ .ok (catAt 1) ∈ Token.items 0 tabbed.text ∧
    (catAt 1).lexeme = .identifier "cat" ∧ Columns (tabbed.text.take 1) ∧
    wordBefore tabbed.text (placeOf tabbed 4) = "cat" ∧ ((1 : Int) ≤ 2 ∧ (2 : Int) < 4) ∧
    wordAt tabbed.text (placeOf tabbed 2) = "cat" := by
  have hitems : Token.items 0 tabbed.text =
      [catAt 1, ⟨.question, ⟨4, 5, 0⟩⟩, Token.eof 0 tabbed.text].map .ok := by
    rw [Token.items_eq]
    decide +kernel
  have hfree : Lexer.Faultless (Token.items 0 tabbed.text) := hitems ▸ Lexer.faultless_ok _
  have hmem : .ok (catAt 1) ∈ Token.items 0 tabbed.text := hitems ▸ List.mem_cons_self
  have hcolumns : Columns (tabbed.text.take 1) :=
    columns_of_ascii (List.forall_mem_singleton.2 (by decide) : ∀ b ∈ ofString "\t", b < 0x80)
  have hfront : ¬Touches (tabbed.text.take 1) := fun h => rtakeWhile_ne_nil h rfl
  have hback : ¬ofString "…" <+: tabbed.text.drop 4 := by decide
  obtain ⟨hbefore, haround⟩ := words_of_identifier tabbed hfree hmem rfl hcolumns
  exact ⟨hfree, hmem, rfl, hcolumns, hbefore.2 hfront, by decide,
    (haround 2 (by decide) (by decide)).2 ⟨hfront, hback⟩⟩

/-- An identifier behind a string with an accented letter, which is one character but two bytes. -/
def accented : Source :=
  ⟨[], "\"é\" cat"⟩

/-- There the word at the first place of the identifier is cut out one byte too early. -/
theorem accented_word_missed :
    ¬∀ (s : Source) (file : Int) (t : Token) (name : Text),
      Lexer.Faultless (Token.items file s.text) → .ok t ∈ Token.items file s.text →
      t.lexeme = .identifier name →
      wordBefore s.text (placeOf s t.span.stop) = name ∧
        ∀ o : Int, t.span.start ≤ o → o < t.span.stop → wordAt s.text (placeOf s o) = name := by
  intro h
  have hitems : Token.items 0 accented.text =
      [⟨.string "é" [], ⟨0, 4, 0⟩⟩, catAt 5, Token.eof 0 accented.text].map .ok := by
    rw [Token.items_eq]
    decide +kernel
  have hfree : Lexer.Faultless (Token.items 0 accented.text) := hitems ▸ Lexer.faultless_ok _
  have hmem : .ok (catAt 5) ∈ Token.items 0 accented.text :=
    hitems ▸ List.mem_cons_of_mem _ List.mem_cons_self
  have hword := (h accented 0 (catAt 5) "cat" hfree hmem rfl).2 5 (by decide) (by decide)
  have hmissed : wordAt accented.text (placeOf accented 5) = [] := by decide +kernel
  cases hmissed.symm.trans hword

end Editor
end LolToolchain
