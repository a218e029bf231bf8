import LolToolchain.Proofs.Token.Extents
import LolToolchain.Proofs.Token.Spelling

/-!
What stands beside a word of a source text that has no fault. A step of the lexer that is no fault
ends with a character of one byte that starts no name, with the word that ends a comment, or where
no name starts; so these are all that can stand in front of an identifier. Behind one stands a
character of one byte or an ellipsis, everything else being a fault.
-/
namespace LolToolchain

/-- Whether a character takes one byte. -/
def IsAscii (c : Char) : Prop :=
  c.toNat < 0x80

instance (c : Char) : Decidable (IsAscii c) :=
  inferInstanceAs (Decidable (c.toNat < 0x80))

namespace IsAscii

variable {c : Char}

theorem encodeChar (h : IsAscii c) : Text.encodeChar c = [c.toNat.toUInt8] :=
  if_pos h

theorem ne_replacement (h : IsAscii c) : c ≠ Char.ofNat 0xFFFD := by
  rintro rfl
  exact absurd h (by decide)

theorem of_continuesName (h : Lexer.continuesName c = true) : IsAscii c := by
  simp only [Lexer.continuesName, Lexer.startsName, Lexer.isDigit, Bool.or_eq_true,
    Bool.and_eq_true, decide_eq_true_eq, beq_iff_eq, Char.le_def, UInt32.le_iff_toNat_le] at h
  have hz : ('z' : Char).val.toNat = 122 := rfl
  have hZ : ('Z' : Char).val.toNat = 90 := rfl
  have h9 : ('9' : Char).val.toNat = 57 := rfl
  change c.val.toNat < 128
  rcases h with ((h | h) | rfl) | h
  · omega
  · omega
  · decide
  · omega

end IsAscii

/-- A name takes one byte for each character. -/
theorem Text.ofChars_name {cs : List Char} (h : ∀ c ∈ cs, Lexer.continuesName c = true) :
    ofChars cs = cs.map fun c => c.toNat.toUInt8 := by
  induction cs with
  | nil => rfl
  | cons c cs ih =>
    obtain ⟨hc, hcs⟩ := List.forall_mem_cons.1 h
    rw [ofChars, List.flatMap_cons, (IsAscii.of_continuesName hc).encodeChar, List.map_cons]
    exact congrArg _ (ih hcs)

namespace Lexer

open Cursor (Reaches Passes)

variable {file : Int} {c c' c'' : Cursor}

/-- The last that is passed from one place to another: a character of one byte that starts no name,
or the word that ends a comment. Or else no name starts at the other place. -/
inductive Parts (c c' : Cursor) : Prop
  | sign {gs : List Glyph} {ch : Char} (h : c.Passes (gs ++ [.char ch]) c') (hascii : IsAscii ch)
    (hch : startsName ch = false)
  | comment {gs : List Glyph} (h : c.Passes (gs ++ ['T', 'L', 'D', 'R'].map .char) c')
  | word (h : (c'.peek? 0).any startsName = false)

theorem Parts.before (hc : c.Reaches c') (h : Parts c' c'') : Parts c c'' := by
  obtain ⟨hs, hhs⟩ := hc
  cases h with
  | sign h hascii hch => exact .sign (List.append_assoc hs _ _ ▸ hhs.trans h) hascii hch
  | comment h => exact .comment (List.append_assoc hs _ _ ▸ hhs.trans h)
  | word h => exact .word h

theorem parts_skip {ch : Char} (hpeek : c.peek? 0 = some ch) (hascii : IsAscii ch)
    (hch : startsName ch = false) : Parts c (c.skip 1) :=
  @Parts.sign _ _ [] _ (passes_one hpeek hascii.ne_replacement) hascii hch

theorem passes_startsWith {cs : List Char} (h : c.startsWith cs = true)
    (hcs : ∀ ch ∈ cs, IsAscii ch) : c.Passes (cs.map .char) (c.skip cs.length) := by
  have hmap : (c.rest.take cs.length).map Glyph.toChar = cs := eq_of_beq h
  have htake : (c.rest.take cs.length).map (Glyph.char ∘ Glyph.toChar) = c.rest.take cs.length := by
    refine (List.map_congr_left fun g hg => ?_).trans (List.map_id _)
    have hmem : g.toChar ∈ cs := hmap ▸ List.mem_map_of_mem hg
    exact (char_of_toChar rfl (hcs _ hmem).ne_replacement).symm
  have hglyphs : cs.map .char = c.rest.take cs.length := by
    rw [← htake, ← List.map_map, hmap]
  exact hglyphs ▸ c.passes_skip cs.length

/-- Line ends are passed up to the last one. -/
private theorem stays_or_parts_breaks (pos : Nat) (gs : List Glyph) :
    skipBreaks.go pos gs = ⟨pos, gs⟩ ∨ Parts ⟨pos, gs⟩ (skipBreaks.go pos gs) := by
  fun_induction skipBreaks.go pos gs with
  | case1 pos rest ih =>
    have hfirst : Passes ⟨pos, .char '\n' :: rest⟩ ([] ++ [.char '\n']) ⟨pos + 1, rest⟩ :=
      ⟨rfl, rfl⟩
    rcases ih with hgo | hgo
    · exact .inr (hgo ▸ .sign hfirst (by decide) (by decide))
    · exact .inr (hgo.before ⟨_, hfirst⟩)
  | case2 pos rest ih =>
    have hfirst : Passes ⟨pos, .char '\r' :: .char '\n' :: rest⟩ ([.char '\r'] ++ [.char '\n'])
        ⟨pos + 2, rest⟩ := ⟨rfl, rfl⟩
    rcases ih with hgo | hgo
    · exact .inr (hgo ▸ .sign hfirst (by decide) (by decide))
    · exact .inr (hgo.before ⟨_, hfirst⟩)
  | case3 pos rest => exact .inl rfl

theorem parts_breaks {ch : Char} (hpeek : c.peek? 0 = some ch)
    (hlone : ¬(isGap ch || (ch == '\r' && (c.skip 1).peek? 0 != some '\n')) = true)
    (hend : (ch == '\n' || ch == '\r') = true) : Parts c (skipBreaks c) := by
  obtain ⟨behind, hpos, -, hrest⟩ := exists_break hpeek hlone hend
  refine (stays_or_parts_breaks c.pos c.rest).resolve_left fun hstay => ?_
  have hle := hrest.pos_le
  have heq : (skipBreaks c).pos = c.pos := congrArg Cursor.pos hstay
  omega

theorem parts_stringBody [CharNames] {start : Nat} {text : Text} {insertions : List Insertion}
    {t : Token} (h : (stringBody file start text insertions c).item = .ok t) :
    Parts c (stringBody file start text insertions c).next ∧
      ∀ name, t.lexeme ≠ .identifier name := by
  fun_induction stringBody file start text insertions c with
  | case1 => cases h
  | case2 text insertions c g rest hrest next _ hg =>
    cases h
    have hpeek : c.peek? 0 = some '"' := by
      rw [Cursor.peek?, hrest]
      exact congrArg some (eq_of_beq hg)
    refine ⟨parts_skip hpeek (by decide) (by decide), ?_⟩
    rintro name ⟨⟩
  | case3 text insertions c g rest hrest next _ _ _ s he =>
    have hescape := onward_escape file (.skip c 1) (Nat.le_refl c.pos)
    rw [he] at hescape
    obtain ⟨⟨f, span, hitem, -⟩, -⟩ := hescape
    cases hitem.symm.trans h
  | case4 text insertions c g rest hrest next _ _ _ ch behind he _ ih =>
    have hescape := onward_escape file (.skip c 1) (Nat.le_refl c.pos)
    rw [he] at hescape
    exact ⟨.before hescape (ih h).1, (ih h).2⟩
  | case5 text insertions c g rest hrest next _ _ _ name behind he _ ih =>
    have hescape := onward_escape file (.skip c 1) (Nat.le_refl c.pos)
    rw [he] at hescape
    exact ⟨.before hescape (ih h).1, (ih h).2⟩
  | case6 text insertions c g rest hrest next _ _ _ ih =>
    exact ⟨.before (.skip c 1) (ih h).1, (ih h).2⟩

theorem parts_digits {ch : Char} (hpeek : c.peek? 0 = some ch) (hdigit : isDigit ch = true) :
    Parts c (c.skipWhile isDigit) := by
  have hpasses := c.passes_skipWhile isDigit
  obtain ⟨gs, g, hgs⟩ := (List.eq_nil_or_concat (c.ahead isDigit)).resolve_left
    (ahead_ne_nil hpeek hdigit)
  rw [List.concat_eq_append] at hgs
  have hg : isDigit g.toChar = true :=
    List.all_eq_true.1 List.all_takeWhile g (hgs ▸ List.mem_concat_self)
  have hname := continuesName_of_isDigit hg
  rw [hgs, eq_char_of_continuesName hname] at hpasses
  refine .sign hpasses (.of_continuesName hname) (Bool.eq_false_iff.2 fun hstart => ?_)
  exact Bool.false_ne_true ((isDigit_of_startsName hstart).symm.trans hg)

theorem lineComment_any (pos : Nat) (gs : List Glyph) :
    ((skipLineComment.go pos gs).peek? 0).any startsName = false := by
  fun_induction skipLineComment.go pos gs with
  | case1 | case2 | case3 => rfl
  | case4 pos g rest _ _ ih => exact ih

theorem parts_blockComment (pos : Nat) (gs : List Glyph) :
    Parts ⟨pos, gs⟩ (skipBlockComment.go pos gs) := by
  fun_induction skipBlockComment.go pos gs with
  | case1 => exact .word rfl
  | case2 pos rest => exact @Parts.comment _ _ [] ⟨rfl, rfl⟩
  | case3 pos g rest _ ih => exact .before (.skip ⟨pos, g :: rest⟩ 1) ih

/-- A word from one place to another, which goes on as far as it can. -/
structure Word (cs : List Char) (c c' : Cursor) : Prop where
  passes : c.Passes (cs.map .char) c'
  starts : (c.peek? 0).any startsName = true
  continues : ∀ ch ∈ cs, continuesName ch = true
  ends : (c'.peek? 0).any continuesName = false

private theorem skipWhile_any (c : Cursor) (p : Char → Bool) : ((c.skipWhile p).peek? 0).any p = false := by
  have hdrop : (c.skipWhile p).rest = c.rest.dropWhile fun g => p g.toChar := by
    have hrest : c.ahead p ++ c.rest.dropWhile (fun g => p g.toChar) = c.rest :=
      List.takeWhile_append_dropWhile
    exact List.append_cancel_left ((c.passes_skipWhile p).rest.symm.trans hrest.symm)
  have hhead := List.head?_dropWhile_not (fun g : Glyph => p g.toChar) c.rest
  rw [Cursor.peek?, hdrop, ← List.head?_eq_getElem?]
  cases hg : (c.rest.dropWhile fun g => p g.toChar).head? with
  | none => rfl
  | some g =>
    rw [hg] at hhead
    exact hhead

private theorem word_ahead {ch : Char} (hpeek : c.peek? 0 = some ch) (hstart : startsName ch = true) :
    ∃ cs, Word cs c (c.skipWhile continuesName) ∧
      Text.ofGlyphs (c.ahead continuesName) = Text.ofChars cs := by
  have hall : ∀ g ∈ c.ahead continuesName, continuesName g.toChar = true :=
    List.all_eq_true.1 List.all_takeWhile
  have hchars : ((c.ahead continuesName).map Glyph.toChar).map Glyph.char =
      c.ahead continuesName := by
    rw [List.map_map]
    exact (List.map_congr_left fun g hg => (eq_char_of_continuesName (hall g hg)).symm).trans
      (List.map_id _)
  refine ⟨(c.ahead continuesName).map Glyph.toChar, ⟨?_, ?_, ?_, skipWhile_any c _⟩,
    ofGlyphs_of_continuesName hall⟩
  · rw [hchars]
    exact c.passes_skipWhile continuesName
  · rw [hpeek]
    exact hstart
  · exact fun d hd => (List.mem_map.1 hd).elim fun g hg => hg.2 ▸ hall g hg.1

/-- What a token tells about the place behind it, and a word about itself. -/
structure Scanned.Parted (file : Int) (c : Cursor) (s : Scanned) (t : Token) : Prop where
  parts : Parts c s.next
  word : ∀ name, t.lexeme = .identifier name →
    ∃ cs, Word cs c s.next ∧ name = Text.ofChars cs ∧ t.span = ⟨c.pos, s.next.pos, file⟩

/-- A step that is no fault. -/
def Step.Parted (file : Int) (c : Cursor) : Step → Prop
  | .stop => True
  | .gap next => Parts c next
  | .item s => ∀ t, s.item = .ok t → s.Parted file c t

private theorem parted_continued (h : c.Reaches c') : (continued file c').Parted file c := by
  have hblanks : c.Reaches (c'.skipWhile isGap) := h.trans (.skipWhile c' _)
  have hline : IsAscii '\n' := by decide
  have hreturn : IsAscii '\r' := by decide
  rw [continued]
  split
  · rename_i behind hbehind
    dsimp only [continuation] at hbehind
    split at hbehind
    · rename_i hstarts
      cases hbehind
      have hpasses := passes_startsWith hstarts (List.forall_mem_singleton.2 hline)
      exact .before hblanks (@Parts.sign _ _ [] _ hpasses (by decide) (by decide))
    · split at hbehind
      · rename_i hstarts
        cases hbehind
        have hpasses := passes_startsWith hstarts
          (List.forall_mem_cons.2 ⟨hreturn, List.forall_mem_singleton.2 hline⟩)
        exact .before hblanks (@Parts.sign _ _ [.char '\r'] _ hpasses (by decide) (by decide))
      · cases hbehind
  · rename_i s hs
    dsimp only [continuation] at hs
    split at hs
    · cases hs
    · split at hs
      · cases hs
      · cases hs
        rintro t ⟨⟩

private theorem parted_number {sign : Text} {ch : Char} (h : c.Reaches c') (hpeek : c'.peek? 0 = some ch)
    (hdigit : isDigit ch = true) : (Step.item (number file c.pos sign c')).Parted file c := by
  rintro t ⟨⟩
  exact ⟨.before h (parts_digits hpeek hdigit), nofun⟩

private theorem parted_named {ch : Char} (hpeek : c.peek? 0 = some ch) (hstart : startsName ch = true) :
    (named file c).Parted file c := by
  have hname := c.passes_skipWhile continuesName
  obtain ⟨cs, hword, hcs⟩ := word_ahead hpeek hstart
  have hparts : Parts c (c.skipWhile continuesName) := by
    refine .word (Bool.eq_false_iff.2 fun h => ?_)
    obtain ⟨d, hd, hstarts⟩ := (Option.any_eq_true _ _).1 h
    have hends := hword.ends
    rw [hd] at hends
    exact Bool.false_ne_true (hends.symm.trans (continuesName_of_startsName hstarts))
  dsimp only [named]
  split
  · exact .word (lineComment_any _ _)
  · split
    · exact .before ⟨_, hname⟩ (parts_blockComment _ _)
    · dsimp only [word]
      split
      · rintro t ⟨⟩
        exact ⟨hparts, nofun⟩
      · rintro t ⟨⟩
        refine ⟨hparts, ?_⟩
        rintro name ⟨⟩
        exact ⟨cs, hword, hcs, rfl⟩

theorem parted_step [CharNames] (file : Int) (c : Cursor) : (step file c).Parted file c := by
  dsimp only [step]
  split
  · trivial
  · rename_i ch hpeek
    have hsign {d : Char} (heq : (ch == d) = true) (hd : IsAscii d ∧ startsName d = false) :
        Parts c (c.skip 1) := by
      obtain rfl := eq_of_beq heq
      exact parts_skip hpeek hd.1 hd.2
    have hmark {lexeme : Lexeme} {d : Char} (hlexeme : ∀ name, lexeme ≠ .identifier name)
        (heq : (ch == d) = true) (hd : IsAscii d ∧ startsName d = false) :
        (Step.item (token file c.pos (c.skip 1) lexeme)).Parted file c := by
      rintro t ⟨⟩
      exact ⟨hsign heq hd, fun name h => absurd h (hlexeme name)⟩
    refine iteInduction (fun hgap => ?_) fun hlone => iteInduction (fun hend => ?_) fun _ => ?_
    · rcases Bool.or_eq_true_iff.1 hgap with hgap | hreturn
      · rcases Bool.or_eq_true_iff.1 hgap with h | h
        · exact hsign h (by decide)
        · exact hsign h (by decide)
      · exact hsign (Bool.and_eq_true_iff.1 hreturn).1 (by decide)
    · rintro t ⟨⟩
      exact ⟨parts_breaks hpeek hlone hend, nofun⟩
    refine iteInduction (fun h => hmark nofun h (by decide)) fun _ =>
      iteInduction (fun h => hmark nofun h (by decide)) fun _ =>
      iteInduction (fun h => hmark nofun h (by decide)) fun _ =>
      iteInduction (fun _ => parted_continued (.skip c 3)) fun _ =>
      iteInduction (fun _ => parted_continued (.skip c 1)) fun _ =>
      iteInduction (fun h => hmark nofun h (by decide)) fun _ => ?_
    refine iteInduction (fun _ => ?_) fun _ => iteInduction (fun _ => ?_) fun _ =>
      iteInduction (fun hdigit => parted_number (.refl c) hpeek hdigit) fun _ =>
      iteInduction (fun hstart => parted_named hpeek hstart) fun _ => by rintro t ⟨⟩
    · intro t ht
      obtain ⟨hparts, hname⟩ := parts_stringBody ht
      exact ⟨.before (.skip c 1) hparts, fun name h => absurd h (hname name)⟩
    · refine iteInduction (fun hdigit => ?_) fun _ => by rintro t ⟨⟩
      obtain ⟨d, hd, hdigit⟩ := (Option.any_eq_true _ _).1 hdigit
      exact parted_number (.skip c 1) hd hdigit

/-- Characters of more than one byte are faults, but for the ellipsis. -/
private theorem step_unexpected [CharNames] {ch : Char} (hpeek : c.peek? 0 = some ch) (hascii : ¬IsAscii ch)
    (hellipsis : ch ≠ '…') :
    step file c = .item
      ⟨.error ((LexFault.unexpected ch).toDiagnostic ⟨c.pos, c.pos + 1, file⟩), c.skip 1⟩ := by
  have hne {d : Char} (hd : IsAscii d) : (ch == d) = false :=
    beq_false_of_ne fun heq => hascii (heq ▸ hd)
  have hname : continuesName ch = false := Bool.eq_false_iff.2 fun h => hascii (.of_continuesName h)
  obtain ⟨hstart, hdigit⟩ := Bool.or_eq_false_iff.1 hname
  obtain ⟨pos, rest⟩ := c
  cases rest with
  | nil => cases hpeek
  | cons g rest =>
    obtain rfl : g.toChar = ch := Option.some.inj hpeek
    have hdots : (Cursor.mk pos (g :: rest)).startsWith ['.', '.', '.'] = false :=
      Cursor.startsWith_eq_false (hne (by decide))
    simp only [step, Cursor.peek?_cons, isGap, hdots, hstart, hdigit, beq_false_of_ne hellipsis,
      hne (d := ' ') (by decide), hne (d := '\t') (by decide), hne (d := '\r') (by decide),
      hne (d := '\n') (by decide), hne (d := ',') (by decide), hne (d := '?') (by decide),
      hne (d := '!') (by decide), hne (d := '.') (by decide), hne (d := '"') (by decide),
      hne (d := '-') (by decide)]
    rfl

/-- Items none of which is a fault. -/
def Faultless (items : List (Except Diagnostic Token)) : Prop :=
  ∀ d, Except.error d ∉ items

theorem faultless_ok (ts : List Token) : Faultless (ts.map .ok) := by
  intro d hd
  obtain ⟨t, -, ht⟩ := List.mem_map.1 hd
  cases ht

/-- Where there is no fault, reading is at a character of one byte or an ellipsis. -/
theorem Faultless.ascii [CharNames] {size : Nat} {ch : Char} (h : Faultless (itemsFrom file size c))
    (hpeek : c.peek? 0 = some ch) : IsAscii ch ∨ ch = '…' := by
  refine Decidable.byContradiction fun hother => ?_
  obtain ⟨hascii, hellipsis⟩ := not_or.1 hother
  rw [itemsFrom_eq_match, step_unexpected hpeek hascii hellipsis] at h
  exact h _ List.mem_cons_self

end Lexer

namespace Cursor

variable {text : Text} {c c' : Cursor} {gs : List Glyph}

private theorem Passes.take_eq (h : c.Passes gs c') (hc : c.Into text) :
    text.take c'.pos = text.take c.pos ++ Text.ofGlyphs gs := by
  have hstop : c'.pos = (text.take c.pos ++ Text.ofGlyphs gs).length := by
    rw [List.length_append, List.length_take, Nat.min_eq_left hc.pos, ← widthOf_eq, h.pos]
  have htext : text = text.take c.pos ++ Text.ofGlyphs gs ++ Text.ofGlyphs c'.rest := by
    rw [List.append_assoc, Text.ofGlyphs, Text.ofGlyphs, ← List.flatMap_append, ← h.rest]
    exact (List.take_append_drop c.pos text).symm.trans (congrArg _ hc.rest.symm)
  generalize text.take c.pos = before at *
  rw [hstop, htext, List.take_left]

end Cursor

/-- What can stand in front of a name: nothing, a character of one byte that starts no name, or the
word that ends a comment. -/
inductive Text.Front : Text → Prop
  | nil : Front []
  | sign (t : Text) {ch : Char} (hascii : IsAscii ch) (hch : Lexer.startsName ch = false) :
    Front (t ++ Text.encodeChar ch)
  | comment (t : Text) : Front (t ++ "TLDR")

/-- What can stand behind a name that goes on as far as it can: nothing, a character of one byte, or
an ellipsis. -/
def Glyph.Back (behind : List Glyph) : Prop :=
  ∀ g ∈ behind.head?, ∃ ch, g = .char ch ∧ Lexer.continuesName ch = false ∧ (IsAscii ch ∨ ch = '…')

/-- A name in a text, with what stands in front of it and behind it. -/
structure Text.Borders (text before : Text) (cs : List Char) (behind : List Glyph) : Prop where
  text : text = before ++ (ofChars cs ++ ofGlyphs behind)
  front : Front before
  continues : ∀ ch ∈ cs, Lexer.continuesName ch = true
  back : Glyph.Back behind

namespace Lexer

variable {file : Int} {size : Nat} {text name : Text} {c c' : Cursor} {t : Token}

private theorem Parts.front (h : Parts c c') (hc : c.Into text)
    (hstart : (c'.peek? 0).any startsName = true) : Text.Front (text.take c'.pos) := by
  cases h with
  | @sign gs ch h hascii hch =>
    rw [h.take_eq hc, Text.ofGlyphs, List.flatMap_append, ← List.append_assoc,
      List.flatMap_singleton]
    exact .sign _ hascii hch
  | @comment gs h =>
    rw [h.take_eq hc, Text.ofGlyphs, List.flatMap_append, ← List.append_assoc]
    exact .comment _
  | word h => exact absurd (hstart.symm.trans h) Bool.noConfusion

private theorem Word.borders [CharNames] {cs : List Char} (h : Word cs c c') (hc : c.Into text)
    (hfront : Text.Front (text.take c.pos)) (hfree : Faultless (itemsFrom file size c')) :
    text.Borders (text.take c.pos) cs c'.rest where
  text := by
    have hrest := hc.rest
    rw [h.passes.rest, Text.ofGlyphs, List.flatMap_append] at hrest
    rw [← Cursor.ofGlyphs_map_char]
    exact (List.take_append_drop c.pos text).symm.trans (congrArg _ hrest.symm)
  front := hfront
  continues := h.continues
  back g hg := by
    have hpeek : c'.peek? 0 = some g.toChar := by
      rw [Cursor.peek?, ← List.head?_eq_getElem?, hg]
      rfl
    have hends := h.ends
    rw [hpeek] at hends
    have hascii := hfree.ascii hpeek
    refine ⟨g.toChar, char_of_toChar rfl ?_, hends, hascii⟩
    rcases hascii with hascii | heq
    · exact hascii.ne_replacement
    · exact heq ▸ by decide

/-- From a place at which no name touches the one before, every identifier has its borders. -/
private theorem exists_borders [CharNames] (hc : c.Into text)
    (hfront : (c.peek? 0).any startsName = true → Text.Front (text.take c.pos))
    (hfree : Faultless (itemsFrom file size c)) (ht : .ok t ∈ itemsFrom file size c)
    (hname : t.lexeme = .identifier name) :
    ∃ before cs behind, text.Borders before cs behind ∧ name = Text.ofChars cs ∧
      t.span = ⟨before.length, (before.length + cs.length : Nat), file⟩ := by
  fun_induction itemsFrom file size c with
  | case1 c hs =>
    obtain rfl := Except.ok.inj (List.mem_singleton.1 ht)
    cases hname
  | case2 c next hs _ ih =>
    have hparts := parted_step file c
    have hreaches := from_step file c
    rw [hs] at hparts hreaches
    obtain ⟨gs, hgs⟩ := hreaches
    exact ih (hc.of_passes hgs) (fun hstart => hparts.front hc hstart) hfree ht
  | case3 c s hs hlt ih =>
    have hstep := parted_step file c
    have hreaches := from_step file c
    rw [hs] at hstep hreaches
    obtain ⟨gs, hgs⟩ := hreaches.next
    have hrest : Faultless (itemsFrom file size s.next) := fun d hd =>
      hfree d (List.mem_cons_of_mem _ hd)
    obtain ⟨u, hu⟩ : ∃ u, s.item = .ok u := by
      cases hitem : s.item with
      | ok u => exact ⟨u, rfl⟩
      | error d => exact absurd (hitem ▸ List.mem_cons_self) (hfree d)
    obtain ⟨hparts, hword⟩ := hstep u hu
    rcases List.mem_cons.1 ht with heq | ht
    · obtain rfl : t = u := Except.ok.inj (heq.trans hu)
      obtain ⟨cs, hcs, rfl, hspan⟩ := hword name hname
      have hlength : (text.take c.pos).length = c.pos := by
        rw [List.length_take, Nat.min_eq_left hc.pos]
      refine ⟨_, cs, _, hcs.borders hc (hfront hcs.starts) hrest, rfl, ?_⟩
      rw [hspan, hlength, hcs.passes.pos, Cursor.widthOf_eq, Cursor.ofGlyphs_map_char,
        Text.ofChars_name hcs.continues, List.length_map]
    · exact ih (hc.of_passes hgs) (fun hstart => hparts.front hc hstart) hrest ht

end Lexer

/-- In a text without faults every identifier has its borders. -/
theorem Token.exists_borders [CharNames] {file : Int} {text name : Text} {t : Token}
    (hfree : Lexer.Faultless (items file text)) (ht : .ok t ∈ items file text)
    (hname : t.lexeme = .identifier name) :
    ∃ before cs behind, text.Borders before cs behind ∧ name = Text.ofChars cs ∧
      t.span = ⟨before.length, (before.length + cs.length : Nat), file⟩ :=
  Lexer.exists_borders (Cursor.into_ofText text) (fun _ => .nil) hfree ht hname

end LolToolchain
