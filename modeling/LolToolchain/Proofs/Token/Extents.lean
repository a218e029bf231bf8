import LolToolchain.Proofs.Token.Validity
import LolToolchain.Token.Reader

/-!
Where the tokens of a source text stand. Reading goes from place to place over the glyphs of the
text; every token covers glyphs that are passed in its step, and no step goes back. So reading reaches
the end, and the spans are in order and hold just the bytes that the tokens were read from.
-/
namespace LolToolchain

namespace Span

/-- The bytes of a text that a span covers. -/
def slice (s : Span) (t : Text) : Text :=
  (t.drop s.start.toNat).take (s.stop - s.start).toNat

/-- Spans one behind another, all between two offsets. -/
def Row (lo : Int) : List Span → Int → Prop
  | [], hi => lo ≤ hi
  | s :: ss, hi => lo ≤ s.start ∧ s.start ≤ s.stop ∧ Row s.stop ss hi

variable {lo mid hi : Int} {ss us : List Span}

theorem Row.le (h : Row lo ss hi) : lo ≤ hi := by
  induction ss generalizing lo with
  | nil => exact h
  | cons s ss ih =>
    obtain ⟨hstart, horder, hrow⟩ := h
    have := ih hrow
    omega

theorem Row.append (hss : Row lo ss mid) (hus : Row mid us hi) : Row lo (ss ++ us) hi := by
  induction ss generalizing lo with
  | nil =>
    cases us with
    | nil => exact Int.le_trans hss hus
    | cons u us => exact ⟨Int.le_trans hss hus.1, hus.2⟩
  | cons s ss ih => exact ⟨hss.1, hss.2.1, ih hss.2.2⟩

theorem Row.widen (h : Row lo ss mid) (hle : mid ≤ hi) : Row lo ss hi := by
  have hnil : Row mid [] hi := hle
  exact List.append_nil ss ▸ h.append hnil

theorem Row.lower (hle : lo ≤ mid) (h : Row mid ss hi) : Row lo ss hi := by
  have hnil : Row lo [] mid := hle
  exact hnil.append h

theorem Row.split (h : Row lo (ss ++ us) hi) : ∃ mid, Row lo ss mid ∧ Row mid us hi := by
  induction ss generalizing lo with
  | nil => exact ⟨lo, Int.le_refl lo, h⟩
  | cons s ss ih =>
    obtain ⟨mid, hss, hus⟩ := ih h.2.2
    exact ⟨mid, ⟨h.1, h.2.1, hss⟩, hus⟩

theorem Row.le_of_mem (h : Row lo ss hi) {s : Span} (hs : s ∈ ss) : s.start ≤ s.stop := by
  induction ss generalizing lo with
  | nil => cases hs
  | cons u us ih =>
    rcases List.mem_cons.1 hs with rfl | hs
    · exact h.2.1
    · exact ih h.2.2 hs

/-- A row that is not empty runs from the start of its first span to the end of its last. -/
theorem Row.tighten {s : Span} (h : Row lo (s :: ss) hi) :
    Row s.start (s :: ss) (ss.getLast?.getD s).stop ∧ (ss.getLast?.getD s).stop ≤ hi := by
  induction ss generalizing lo s with
  | nil => exact ⟨⟨Int.le_refl _, h.2.1, Int.le_refl _⟩, h.2.2⟩
  | cons u us ih =>
    obtain ⟨hrow, hle⟩ := ih h.2.2
    rw [List.getLast?_cons, Option.getD_some]
    exact ⟨⟨Int.le_refl _, h.2.1, hrow.lower h.2.2.1⟩, hle⟩

end Span

namespace Cursor

/-- The glyphs from one place to another. -/
structure Passes (c : Cursor) (gs : List Glyph) (c' : Cursor) : Prop where
  rest : c.rest = gs ++ c'.rest
  pos : c'.pos = c.pos + widthOf gs

/-- A place ahead of another one, or the same. -/
def Reaches (c c' : Cursor) : Prop :=
  ∃ gs, c.Passes gs c'

variable {c c' c'' : Cursor} {gs hs : List Glyph} {text : Text}

theorem Passes.refl (c : Cursor) : c.Passes [] c :=
  ⟨rfl, rfl⟩

theorem Passes.trans (h : c.Passes gs c') (h' : c'.Passes hs c'') : c.Passes (gs ++ hs) c'' := by
  refine ⟨?_, ?_⟩
  · rw [h.rest, h'.rest, List.append_assoc]
  · rw [h'.pos, h.pos, widthOf_append, Nat.add_assoc]

theorem passes_past (h : gs <+: c.rest) : c.Passes gs (c.past gs) := by
  obtain ⟨rest, hrest⟩ := h
  refine ⟨?_, rfl⟩
  rw [past, ← hrest, List.drop_left]

theorem passes_skip (c : Cursor) (n : Nat) : c.Passes (c.rest.take n) (c.skip n) :=
  passes_past (List.take_prefix n c.rest)

theorem passes_skipWhile (c : Cursor) (p : Char → Bool) : c.Passes (c.ahead p) (c.skipWhile p) :=
  passes_past (List.takeWhile_prefix _)

/-- Every glyph takes at least one byte. -/
theorem length_le_widthOf (gs : List Glyph) : gs.length ≤ widthOf gs := by
  induction gs with
  | nil => exact Nat.le_refl 0
  | cons g gs ih =>
    have hg := g.one_le_width
    change gs.length + 1 ≤ g.width + widthOf gs
    omega

theorem Passes.pos_lt (h : c.Passes gs c') (hgs : gs ≠ []) : c.pos < c'.pos := by
  have hlength := List.length_pos_iff.2 hgs
  have hwidth := length_le_widthOf gs
  have hpos := h.pos
  omega

namespace Reaches

theorem refl (c : Cursor) : c.Reaches c :=
  ⟨[], .refl c⟩

theorem trans (h : c.Reaches c') (h' : c'.Reaches c'') : c.Reaches c'' := by
  obtain ⟨gs, hgs⟩ := h
  obtain ⟨hs, hhs⟩ := h'
  exact ⟨gs ++ hs, hgs.trans hhs⟩

theorem skip (c : Cursor) (n : Nat) : c.Reaches (c.skip n) :=
  ⟨_, c.passes_skip n⟩

theorem skipWhile (c : Cursor) (p : Char → Bool) : c.Reaches (c.skipWhile p) :=
  ⟨_, c.passes_skipWhile p⟩

theorem pos_le (h : c.Reaches c') : c.pos ≤ c'.pos := by
  obtain ⟨gs, hgs⟩ := h
  exact hgs.pos ▸ Nat.le_add_right _ _

end Reaches

/-- A place in a text: what lies ahead is the rest of the text. -/
structure Into (text : Text) (c : Cursor) : Prop where
  rest : Text.ofGlyphs c.rest = text.drop c.pos
  pos : c.pos ≤ text.length

theorem into_ofText (text : Text) : (ofText text).Into text :=
  ⟨Text.ofGlyphs_glyphs text, Nat.zero_le _⟩

theorem Into.of_passes (hc : c.Into text) (h : c.Passes gs c') : c'.Into text := by
  have hwidth := widthOf_eq gs
  have hrest := hc.rest
  rw [h.rest, Text.ofGlyphs, List.flatMap_append] at hrest
  have hlength := congrArg List.length hrest
  rw [List.length_append, List.length_drop] at hlength
  refine ⟨?_, ?_⟩
  · rw [h.pos, ← List.drop_drop, ← hrest, hwidth]
    exact List.drop_left.symm
  · have hpos := h.pos
    have hle := hc.pos
    rw [Text.ofGlyphs] at hwidth
    omega

/-- The span between two places holds the bytes of the glyphs between them. -/
theorem Passes.slice_eq (h : c.Passes gs c') (hc : c.Into text) (file : Int) :
    Span.slice ⟨c.pos, c'.pos, file⟩ text = Text.ofGlyphs gs := by
  have hstop : ((c'.pos : Int) - c.pos).toNat = (Text.ofGlyphs gs).length := by
    rw [← widthOf_eq, h.pos]
    omega
  have hrest : text.drop c.pos = Text.ofGlyphs gs ++ Text.ofGlyphs c'.rest := by
    rw [← hc.rest, h.rest, Text.ofGlyphs, List.flatMap_append]
    rfl
  change (text.drop c.pos).take ((c'.pos : Int) - c.pos).toNat = _
  rw [hstop, hrest, List.take_left]

end Cursor

/-- The bytes that a lexeme can be read from: words and numbers are these bytes themselves, and
strings stand between quotes. -/
def Lexeme.Covers (bytes : Text) : Lexeme → Prop
  | .number digits => bytes = digits
  | .identifier name => bytes = name
  | .keyword _ spelling => bytes = spelling
  | .string _ _ => ∃ inside, bytes = "\"" ++ inside ++ "\""
  | _ => True

/-- A token that covers what lies between two places. -/
structure Token.Between (file : Int) (c behind : Cursor) (t : Token) : Prop where
  span : t.span = ⟨c.pos, behind.pos, file⟩
  bytes : ∃ gs, gs ≠ [] ∧ c.Passes gs behind ∧ t.lexeme.Covers (Text.ofGlyphs gs)
  insertions : Span.Row c.pos (t.insertions.map Insertion.span) behind.pos
  isProper : t.lexeme ≠ .endOfInput

namespace Lexer

open Cursor (Reaches Passes)

variable {file : Int} {c : Cursor}

theorem reaches_breaks (pos : Nat) (gs : List Glyph) :
    Reaches ⟨pos, gs⟩ (skipBreaks.go pos gs) := by
  fun_induction skipBreaks.go pos gs with
  | case1 pos rest ih => exact (Reaches.skip ⟨pos, _⟩ 1).trans ih
  | case2 pos rest ih => exact (Reaches.skip ⟨pos, _⟩ 2).trans ih
  | case3 pos rest => exact .refl _

theorem reaches_lineComment (pos : Nat) (gs : List Glyph) :
    Reaches ⟨pos, gs⟩ (skipLineComment.go pos gs) := by
  fun_induction skipLineComment.go pos gs with
  | case1 | case2 | case3 => exact .refl _
  | case4 pos g rest _ _ ih => exact (Reaches.skip ⟨pos, g :: rest⟩ 1).trans ih

theorem reaches_blockComment (pos : Nat) (gs : List Glyph) :
    Reaches ⟨pos, gs⟩ (skipBlockComment.go pos gs) := by
  fun_induction skipBlockComment.go pos gs with
  | case1 => exact .refl _
  | case2 pos rest => exact .skip ⟨pos, _⟩ 4
  | case3 pos g rest _ ih => exact (Reaches.skip ⟨pos, g :: rest⟩ 1).trans ih

/-- A fault read from a place on, marked at or behind it. -/
structure Scanned.Fails (c : Cursor) (s : Scanned) : Prop where
  item : ∃ (f : LexFault) (span : Span), s.item = .error (f.toDiagnostic span) ∧
    (c.pos : Int) ≤ span.start
  next : c.Reaches s.next

theorem fails_fault {behind : Cursor} (f : LexFault) {start : Nat} (hstart : c.pos ≤ start)
    (h : c.Reaches behind) : (fault file start behind f).Fails c :=
  ⟨⟨f, behind.spanFrom file start, rfl, Int.ofNat_le.2 hstart⟩, h⟩

theorem Scanned.Fails.before {c' : Cursor} {s : Scanned} (h : c.Reaches c') (hs : s.Fails c') :
    s.Fails c := by
  obtain ⟨⟨f, span, hitem, hstart⟩, hnext⟩ := hs
  have hpos := h.pos_le
  exact ⟨⟨f, span, hitem, by omega⟩, h.trans hnext⟩

/-- Reading behind a place that is found, or a fault from there on. -/
def Onward {α : Type} (c : Cursor) (r : Except Scanned (α × Cursor)) : Prop :=
  match r with
  | .ok (_, behind) => c.Reaches behind
  | .error s => s.Fails c

theorem onward_delimited (file : Int) (closer : Char) {colon : Nat} {c₀ : Cursor} (h₀ : c₀.Reaches c)
    (hcolon : c₀.pos ≤ colon) : Onward c₀ (delimited file colon closer c) := by
  have hbody : c₀.Reaches (((c.skip 1).past ((c.skip 1).ahead fun ch => ch != closer && ch != '"'))) :=
    (h₀.trans (.skip c 1)).trans (.skipWhile _ _)
  dsimp only [delimited]
  split
  · exact hbody.trans (.skip _ 1)
  · exact fails_fault _ hcolon hbody

private theorem onward_named [CharNames] {colon : Nat} {closer : Char} {c₀ : Cursor} (h₀ : c₀.Reaches c)
    (hcolon : c₀.pos ≤ colon) : Onward c₀ (escape.named file colon c closer) := by
  have h := onward_delimited file closer h₀ hcolon
  dsimp only [escape.named, bind, Except.bind]
  split
  · rename_i heq
    rwa [heq] at h
  · rename_i heq
    rw [heq] at h
    split
    · exact h
    · exact fails_fault _ hcolon h

theorem onward_escape [CharNames] (file : Int) {colon : Nat} {c₀ : Cursor} (h₀ : c₀.Reaches c)
    (hcolon : c₀.pos ≤ colon) : Onward c₀ (escape file colon c) := by
  have hparen := onward_delimited file ')' h₀ hcolon
  have hbrace := onward_delimited file '}' h₀ hcolon
  rw [escape]
  split
  case h_1 => exact fails_fault _ hcolon h₀
  case h_2 | h_3 | h_4 | h_5 | h_6 => exact h₀.trans (.skip c 1)
  case h_7 =>
    dsimp only [bind, Except.bind]
    split
    · rename_i heq
      rwa [heq] at hparen
    · rename_i heq
      rw [heq] at hparen
      split
      · exact hparen
      · exact fails_fault _ hcolon hparen
  case h_8 | h_9 => exact onward_named h₀ hcolon
  case h_10 =>
    dsimp only [bind, Except.bind]
    split
    · rename_i heq
      rwa [heq] at hbrace
    · rename_i heq
      rw [heq] at hbrace
      split
      · exact hbrace
      · exact fails_fault _ hcolon hbrace
  case h_11 => exact fails_fault _ hcolon (h₀.trans (.skip c 1))

/-- An item read from a place on: a token that starts there, or a fault; some glyph is passed. -/
structure Scanned.From (file : Int) (c : Cursor) (s : Scanned) : Prop where
  token : ∀ t, s.item = .ok t → ∃ behind, t.Between file c behind ∧ behind.pos ≤ s.next.pos
  fault : ∀ d, s.item = .error d → ∃ (f : LexFault) (span : Span), d = f.toDiagnostic span ∧
    (c.pos : Int) ≤ span.start
  next : c.Reaches s.next

theorem Scanned.Fails.fails_from {s : Scanned} (h : s.Fails c) : s.From file c where
  token t ht := by
    obtain ⟨f, span, hitem, -⟩ := h.item
    rw [hitem] at ht
    cases ht
  fault d hd := by
    obtain ⟨f, span, hitem, hstart⟩ := h.item
    rw [hitem] at hd
    cases hd
    exact ⟨f, span, rfl, hstart⟩
  next := h.next

theorem from_token {behind : Cursor} {gs : List Glyph} {lexeme : Lexeme} (h : c.Passes gs behind)
    (hgs : gs ≠ []) (hlexeme : lexeme.Covers (Text.ofGlyphs gs))
    (hrow : Span.Row c.pos ((Token.mk lexeme (behind.spanFrom file c.pos)).insertions.map
      Insertion.span) behind.pos)
    (hproper : lexeme ≠ .endOfInput) : (token file c.pos behind lexeme).From file c where
  token t ht := by
    cases ht
    exact ⟨behind, ⟨rfl, ⟨gs, hgs, h, hlexeme⟩, hrow, hproper⟩, Nat.le_refl _⟩
  fault := nofun
  next := ⟨gs, h⟩

/-- A lexeme that is no string names no variables. -/
theorem from_plain {behind : Cursor} {gs : List Glyph} {lexeme : Lexeme} (h : c.Passes gs behind)
    (hgs : gs ≠ []) (hlexeme : lexeme.Covers (Text.ofGlyphs gs))
    (hproper : lexeme ≠ .endOfInput) (hstring : ∀ text insertions, lexeme ≠ .string text insertions) :
    (token file c.pos behind lexeme).From file c := by
  refine from_token h hgs hlexeme ?_ hproper
  have hle := (Reaches.pos_le ⟨gs, h⟩)
  cases lexeme with
  | string text insertions => exact absurd rfl (hstring text insertions)
  | _ => exact Int.ofNat_le.2 hle

theorem char_of_toChar {g : Glyph} {ch : Char} (h : g.toChar = ch) (hch : ch ≠ Char.ofNat 0xFFFD) :
    g = .char ch := by
  cases g with
  | char d => exact congrArg _ h
  | stray b => exact absurd h.symm hch

/-- A string covers everything from its first quote to its last. -/
theorem from_stringBody [CharNames] {c₀ c₁ : Cursor} {text : Text} {insertions : List Insertion}
    (hopen : c₀.Passes [.char '"'] c₁) (h : c₁.Reaches c)
    (hrow : Span.Row c₀.pos (insertions.map Insertion.span) c.pos) :
    (stringBody file c₀.pos text insertions c).From file c₀ := by
  have hquote : c₀.Reaches c₁ := ⟨_, hopen⟩
  fun_induction stringBody file c₀.pos text insertions c with
  | case1 => exact (fails_fault _ (Nat.le_refl _) (hquote.trans h)).fails_from
  | case2 text insertions c g rest hrest next _ hg =>
    obtain ⟨inside, hinside⟩ := h
    have hnext : c.Passes [.char '"'] next := by
      have hskip := c.passes_skip 1
      rwa [hrest, char_of_toChar (eq_of_beq hg) (by decide)] at hskip
    refine from_token ((hopen.trans hinside).trans hnext) (List.cons_ne_nil _ _) ?_ ?_
      (by rintro ⟨⟩)
    · refine ⟨Text.ofGlyphs inside, ?_⟩
      rw [List.cons_append, List.cons_append, Text.ofGlyphs, List.flatMap_cons, List.flatMap_append]
      rfl
    · exact hrow.widen (Int.ofNat_le.2 (Reaches.pos_le ⟨_, hnext⟩))
  | case3 text insertions c g rest hrest next _ _ _ s he =>
    have hescape := onward_escape file (.skip c 1) (Nat.le_refl c.pos)
    rw [he] at hescape
    exact (Scanned.Fails.before (hquote.trans h) hescape).fails_from
  | case4 text insertions c g rest hrest next _ _ _ ch behind he _ ih =>
    have hescape := onward_escape file (.skip c 1) (Nat.le_refl c.pos)
    rw [he] at hescape
    exact ih (h.trans hescape) (hrow.widen (Int.ofNat_le.2 hescape.pos_le))
  | case5 text insertions c g rest hrest next _ _ _ name behind he _ ih =>
    have hescape := onward_escape file (.skip c 1) (Nat.le_refl c.pos)
    rw [he] at hescape
    refine ih (h.trans hescape) ?_
    rw [List.map_append]
    exact hrow.append ⟨Int.le_refl _, Int.ofNat_le.2 hescape.pos_le, Int.le_refl _⟩
  | case6 text insertions c g rest hrest next _ _ _ ih =>
    have hskip : c.Reaches next := .skip c 1
    exact ih (h.trans hskip) (hrow.widen (Int.ofNat_le.2 hskip.pos_le))

/-- What a step leads to: over a gap it moves on, and an item is read from the place of the step. -/
def Step.From (file : Int) (c : Cursor) : Step → Prop
  | .stop => True
  | .gap next => c.Reaches next
  | .item s => s.From file c

theorem from_continued {c₀ : Cursor} (h : c₀.Reaches c) : (continued file c).From file c₀ := by
  have hblanks : c₀.Reaches (c.skipWhile isGap) := h.trans (.skipWhile c _)
  rw [continued]
  split
  · rename_i behind hbehind
    dsimp only [continuation] at hbehind
    split at hbehind
    · cases hbehind
      exact hblanks.trans (.skip _ 1)
    · split at hbehind <;> cases hbehind
      exact hblanks.trans (.skip _ 2)
  · rename_i s hs
    dsimp only [continuation] at hs
    split at hs
    · cases hs
    · split at hs <;> cases hs
      have hfault : (c₀.pos : Int) ≤ (c.skipWhile isGap).pos := Int.ofNat_le.2 hblanks.pos_le
      exact Scanned.Fails.fails_from ⟨⟨_, _, rfl, hfault⟩, hblanks.trans (.skip _ 1)⟩

/-- A run of line ends starts with one byte. -/
theorem exists_break {ch : Char} (hch : c.peek? 0 = some ch)
    (hlone : ¬(isGap ch || (ch == '\r' && (c.skip 1).peek? 0 != some '\n')) = true)
    (hend : (ch == '\n' || ch == '\r') = true) :
    ∃ behind, behind.pos = c.pos + 1 ∧ c.Passes [.char ch] behind ∧
      behind.Reaches (skipBreaks c) := by
  obtain ⟨pos, rest⟩ := c
  cases rest with
  | nil => cases hch
  | cons g rest =>
    have hg : g.toChar = ch := Option.some.inj hch
    rcases Bool.or_eq_true_iff.1 hend with h | h
    · obtain rfl := eq_of_beq h
      obtain rfl := char_of_toChar hg (by decide)
      exact ⟨⟨pos + 1, rest⟩, rfl, ⟨rfl, rfl⟩, reaches_breaks (pos + 1) rest⟩
    · obtain rfl := eq_of_beq h
      obtain rfl := char_of_toChar hg (by decide)
      have hnext : Cursor.peek? ⟨pos + 1, rest⟩ 0 = some '\n' :=
        Decidable.byContradiction fun hne => hlone (Bool.or_eq_true_iff.2 (.inr (bne_iff_ne.2 hne)))
      cases rest with
      | nil => cases hnext
      | cons g' rest =>
        obtain rfl := char_of_toChar (Option.some.inj hnext) (by decide)
        exact ⟨⟨pos + 1, .char '\n' :: rest⟩, rfl, ⟨rfl, rfl⟩,
          reaches_breaks (pos + 1) (.char '\n' :: rest)⟩

/-- The token of a run of line ends covers the first of them. -/
theorem from_breaks {behind : Cursor} {ch : Char} (hpos : behind.pos = c.pos + 1)
    (hfirst : c.Passes [.char ch] behind) (hrest : behind.Reaches (skipBreaks c)) :
    Scanned.From file c ⟨.ok ⟨.lineBreak, ⟨c.pos, c.pos + 1, file⟩⟩, skipBreaks c⟩ where
  token t ht := by
    cases ht
    have hspan : (⟨c.pos, c.pos + 1, file⟩ : Span) = ⟨c.pos, behind.pos, file⟩ := by
      rw [hpos]
      rfl
    exact ⟨behind, ⟨hspan, ⟨_, List.cons_ne_nil _ _, hfirst, trivial⟩,
      Int.ofNat_le.2 (Reaches.pos_le ⟨_, hfirst⟩), nofun⟩, hrest.pos_le⟩
  fault := nofun
  next := .trans ⟨_, hfirst⟩ hrest

theorem ne_nil_of_peek {ch : Char} (hch : c.peek? 0 = some ch) : c.rest ≠ [] := by
  intro hnil
  rw [Cursor.peek?, hnil] at hch
  cases hch

theorem passes_one {ch : Char} (hch : c.peek? 0 = some ch) (h : ch ≠ Char.ofNat 0xFFFD) :
    c.Passes [.char ch] (c.skip 1) := by
  have hskip := c.passes_skip 1
  obtain ⟨g, rest, hrest⟩ := List.exists_cons_of_ne_nil (ne_nil_of_peek hch)
  rw [Cursor.peek?, hrest] at hch
  rwa [hrest, List.take_succ_cons, List.take_zero, char_of_toChar (Option.some.inj hch) h] at hskip

theorem ahead_ne_nil {ch : Char} {p : Char → Bool} (hch : c.peek? 0 = some ch)
    (hp : p ch = true) : c.ahead p ≠ [] := by
  obtain ⟨cs, hahead, -⟩ := exists_ahead hch hp
  intro hnil
  rw [hnil] at hahead
  cases hahead

private theorem from_word {ch : Char} (hch : c.peek? 0 = some ch) (hstart : startsName ch = true) :
    (named file c).From file c := by
  have hname := c.passes_skipWhile continuesName
  have hgs := ahead_ne_nil hch (continuesName_of_startsName hstart)
  dsimp only [named]
  split
  · exact .trans ⟨_, hname⟩ (reaches_lineComment _ _)
  · split
    · exact .trans ⟨_, hname⟩ (reaches_blockComment _ _)
    · dsimp only [word]
      split <;> exact from_plain hname hgs rfl nofun nofun

private theorem from_number {ch : Char} {sign : List Glyph} {c' : Cursor} (hsign : c.Passes sign c')
    (hch : c'.peek? 0 = some ch) (hdigit : isDigit ch = true) :
    (number file c.pos (Text.ofGlyphs sign) c').From file c := by
  have hdigits := c'.passes_skipWhile isDigit
  have hgs := List.append_ne_nil_of_right_ne_nil sign (ahead_ne_nil hch hdigit)
  refine from_plain (hsign.trans hdigits) hgs ?_ nofun nofun
  exact List.flatMap_append

theorem from_step [CharNames] (file : Int) (c : Cursor) : (step file c).From file c := by
  dsimp only [step]
  split
  · trivial
  · rename_i ch hch
    have hskip := c.passes_skip 1
    have hne : c.rest.take 1 ≠ [] := by
      have hrest := ne_nil_of_peek hch
      simp [hrest]
    have hmark {lexeme : Lexeme} (hl : lexeme.Covers (Text.ofGlyphs (c.rest.take 1)))
        (hproper : lexeme ≠ .endOfInput)
        (hstring : ∀ text insertions, lexeme ≠ .string text insertions) :
        (Step.item (token file c.pos (c.skip 1) lexeme)).From file c :=
      from_plain hskip hne hl hproper hstring
    have hfault {f : LexFault} {span : Span} (hspan : (c.pos : Int) ≤ span.start) :
        (Step.item ⟨.error (f.toDiagnostic span), c.skip 1⟩).From file c :=
      Scanned.Fails.fails_from ⟨⟨f, span, rfl, hspan⟩, ⟨_, hskip⟩⟩
    refine iteInduction (fun _ => ⟨_, hskip⟩) fun hlone => iteInduction (fun hend => ?_) fun _ => ?_
    · obtain ⟨behind, hpos, hfirst, hrest⟩ := exists_break hch hlone hend
      exact from_breaks hpos hfirst hrest
    refine iteInduction (fun _ => hmark trivial nofun nofun) fun _ =>
      iteInduction (fun _ => hmark trivial nofun nofun) fun _ =>
      iteInduction (fun _ => hmark trivial nofun nofun) fun _ =>
      iteInduction (fun _ => from_continued (.skip c 3)) fun _ =>
      iteInduction (fun _ => from_continued (.skip c 1)) fun _ =>
      iteInduction (fun _ => hmark trivial nofun nofun) fun _ => ?_
    refine iteInduction (fun hquote => ?_) fun _ => iteInduction (fun hminus => ?_) fun _ =>
      iteInduction (fun hdigit => from_number (.refl c) hch hdigit) fun _ =>
      iteInduction (fun hstart => from_word hch hstart) fun _ => hfault (Int.le_refl _)
    · obtain rfl := eq_of_beq hquote
      exact from_stringBody (passes_one hch (by decide)) (.refl _)
        (Int.ofNat_le.2 (Reaches.pos_le ⟨_, hskip⟩))
    · obtain rfl := eq_of_beq hminus
      refine iteInduction (fun hdigit => ?_) fun _ => hfault (Int.le_refl _)
      obtain ⟨d, hd, hdigit⟩ := (Option.any_eq_true _ _).1 hdigit
      exact from_number (passes_one hch (by decide)) hd hdigit

/-- Items read one behind another from a place on; each one leaves less of the text. -/
inductive Run (file : Int) : Cursor → List (Except Diagnostic Token) → Prop
  | nil (c : Cursor) : Run file c []
  | gap {c c' : Cursor} {calls : List (Except Diagnostic Token)} (h : c.Reaches c')
    (hrun : Run file c' calls) : Run file c calls
  | item {c : Cursor} {s : Scanned} {calls : List (Except Diagnostic Token)} (h : s.From file c)
    (hlt : s.next.rest.length < c.rest.length) (hrun : Run file s.next calls) :
    Run file c (s.item :: calls)

theorem exists_run [CharNames] (file : Int) (size : Nat) (c : Cursor) : ∃ calls, Run file c calls ∧
    itemsFrom file size c = calls ++ [Except.ok ⟨.endOfInput, ⟨size, size, file⟩⟩] := by
  fun_induction itemsFrom file size c with
  | case1 c hs => exact ⟨[], .nil c, rfl⟩
  | case2 c next hs _ ih =>
    have hstep := from_step file c
    rw [hs] at hstep
    obtain ⟨calls, hrun, hcalls⟩ := ih
    exact ⟨calls, .gap hstep hrun, hcalls⟩
  | case3 c s hs hlt ih =>
    have hstep := from_step file c
    rw [hs] at hstep
    obtain ⟨calls, hrun, hcalls⟩ := ih
    exact ⟨s.item :: calls, .item hstep hlt hrun, congrArg _ hcalls⟩

end Lexer

/-- Tokens that start at or behind the end of the one before, and faults that point behind it. -/
def Token.Ordered (lo : Int) : List (Except Diagnostic Token) → Prop
  | [] => True
  | .ok t :: calls => lo ≤ t.span.start ∧ Ordered t.span.stop calls
  | .error d :: calls => lo ≤ d.span.start ∧ Ordered lo calls

namespace Lexer.Run

variable {file : Int} {c : Cursor} {calls : List (Except Diagnostic Token)}

theorem length_le (h : Run file c calls) : calls.length ≤ c.rest.length := by
  induction h with
  | nil => exact Nat.zero_le _
  | gap h _ ih =>
    obtain ⟨gs, hgs⟩ := h
    rw [hgs.rest, List.length_append]
    omega
  | item _ hlt _ ih =>
    rw [List.length_cons]
    omega

theorem between (h : Run file c calls) {t : Token} (ht : .ok t ∈ calls) :
    ∃ c' behind, c.Reaches c' ∧ t.Between file c' behind := by
  induction h with
  | nil => cases ht
  | gap h _ ih =>
    obtain ⟨c', behind, hreaches, hbetween⟩ := ih ht
    exact ⟨c', behind, h.trans hreaches, hbetween⟩
  | item h _ _ ih =>
    rcases List.mem_cons.1 ht with hitem | ht
    · obtain ⟨behind, hbetween, -⟩ := h.token t hitem.symm
      exact ⟨_, behind, .refl _, hbetween⟩
    · obtain ⟨c', behind, hreaches, hbetween⟩ := ih ht
      exact ⟨c', behind, h.next.trans hreaches, hbetween⟩

/-- Tokens lie inside the text and cover the bytes that they were read from. -/
theorem within {text : Text} (h : Run file (.ofText text) calls) {t : Token} (ht : .ok t ∈ calls) :
    (0 ≤ t.span.start ∧ t.span.start < t.span.stop ∧ t.span.stop ≤ (text.length : Int)) ∧
      t.lexeme.Covers (t.span.slice text) := by
  obtain ⟨c, behind, ⟨hs, hhs⟩, ⟨hspan, ⟨gs, hgs, hpasses, hbytes⟩, -, -⟩⟩ := h.between ht
  have hc := (Cursor.into_ofText text).of_passes hhs
  have hlt := hpasses.pos_lt hgs
  have hle := (hc.of_passes hpasses).pos
  rw [hspan, hpasses.slice_eq hc]
  exact ⟨⟨Int.natCast_nonneg _, Int.ofNat_lt.2 hlt, Int.ofNat_le.2 hle⟩, hbytes⟩

theorem proper (h : Run file c calls) {t : Token} (ht : .ok t ∈ calls) : t.lexeme ≠ .endOfInput := by
  obtain ⟨c, behind, -, hbetween⟩ := h.between ht
  exact hbetween.isProper

theorem fault (h : Run file c calls) {d : Diagnostic} (hd : .error d ∈ calls) :
    ∃ (f : LexFault) (span : Span), d = f.toDiagnostic span := by
  induction h with
  | nil => cases hd
  | gap _ _ ih => exact ih hd
  | item h _ _ ih =>
    rcases List.mem_cons.1 hd with hitem | hd
    · obtain ⟨f, span, hf, -⟩ := h.fault d hitem.symm
      exact ⟨f, span, hf⟩
    · exact ih hd

theorem ordered (h : Run file c calls) {lo : Int} (hlo : lo ≤ c.pos) :
    Token.Ordered lo calls := by
  induction h generalizing lo with
  | nil => trivial
  | gap h _ ih =>
    have := h.pos_le
    exact ih (by omega)
  | @item c s calls h _ _ ih =>
    cases hitem : s.item with
    | ok t =>
      obtain ⟨behind, hbetween, hle⟩ := h.token t hitem
      refine ⟨?_, ih ?_⟩
      · rw [hbetween.span]
        exact hlo
      · rw [hbetween.span]
        exact Int.ofNat_le.2 hle
    | error d =>
      obtain ⟨f, span, rfl, hstart⟩ := h.fault d hitem
      have := h.next.pos_le
      exact ⟨Int.le_trans hlo hstart, ih (by omega)⟩

end Lexer.Run

/-- The token that closes the items of a text. -/
def Token.eof (file : Int) (text : Text) : Token :=
  ⟨.endOfInput, ⟨text.length, text.length, file⟩⟩

theorem Token.exists_items [CharNames] (file : Int) (text : Text) : ∃ calls,
    Lexer.Run file (.ofText text) calls ∧ items file text = calls ++ [Except.ok (eof file text)] :=
  Lexer.exists_run file text.length (.ofText text)

private theorem Token.Ordered.pairwise {lo : Int} {calls : List (Except Diagnostic Token)}
    (horder : ∀ t, .ok t ∈ calls → t.span.start ≤ t.span.stop) (h : Ordered lo calls) :
    (calls.filterMap Except.toOption).Pairwise (fun t u => t.span.stop ≤ u.span.start) ∧
      ∀ t ∈ calls.filterMap Except.toOption, lo ≤ t.span.start := by
  induction calls generalizing lo with
  | nil => exact ⟨.nil, nofun⟩
  | cons item calls ih =>
    have htail (t : Token) (ht : .ok t ∈ calls) := horder t (List.mem_cons_of_mem _ ht)
    cases item with
    | error d =>
      obtain ⟨hpairwise, hbehind⟩ := ih htail h.2
      exact ⟨hpairwise, fun u hu => hbehind u hu⟩
    | ok t =>
      obtain ⟨hpairwise, hbehind⟩ := ih htail h.2
      have ht := horder t List.mem_cons_self
      refine ⟨.cons hbehind hpairwise, ?_⟩
      intro u hu
      rcases List.mem_cons.1 hu with rfl | hu
      · exact h.1
      · have := hbehind u hu
        have := h.1
        omega

namespace TokenReader

/-- The answers of so many calls of `next`. -/
def answers (r : TokenReader) : Nat → List (Option (Except Diagnostic Token))
  | 0 => []
  | n + 1 => r.next.1 :: r.next.2.answers n

variable {items calls : List (Except Diagnostic Token)} {last : Except Diagnostic Token} {peeked : Bool}

/-- The last item is the answer from the time on when it is reached. -/
private theorem answers_last (n : Nat) : (⟨calls ++ [last], calls.length, peeked⟩ : TokenReader).answers n =
    .replicate n (some last) := by
  induction n generalizing peeked with
  | zero => rfl
  | succ n ih =>
    have hplace : (⟨calls ++ [last], calls.length, peeked⟩ : TokenReader).advance 1 =
        ⟨calls ++ [last], calls.length, false⟩ := by
      simp [advance]
    rw [answers, next, hplace, ih, List.getElem?_concat_length, List.replicate_succ]

/-- The items are the answers one after another. -/
private theorem answers_append (done : List (Except Diagnostic Token)) (n : Nat) :
    (⟨done ++ calls ++ [last], done.length, peeked⟩ : TokenReader).answers (calls.length + n) =
      calls.map some ++ .replicate n (some last) := by
  induction calls generalizing done peeked with
  | nil =>
    rw [List.append_nil, List.length_nil, Nat.zero_add]
    exact answers_last n
  | cons item calls ih =>
    have hplace : (⟨done ++ item :: calls ++ [last], done.length, peeked⟩ : TokenReader).advance 1 =
        ⟨done ++ [item] ++ calls ++ [last], (done ++ [item]).length, false⟩ := by
      simp [advance]
    have hlength : (item :: calls).length + n = calls.length + n + 1 := by
      rw [List.length_cons]
      omega
    rw [hlength, answers, next, hplace, ih]
    simp

/-- Reading that reaches the end of a text in so many calls and finds the tokens where they stand. -/
structure Exact [CharNames] (file : Int) (text : Text) (calls : List (Except Diagnostic Token)) :
    Prop where
  /-- From then on every answer is the end of the input. -/
  answers : ∀ n, (ofSource file text).answers (calls.length + n) =
    calls.map some ++ .replicate n (some (.ok (Token.eof file text)))
  length : calls.length ≤ text.length
  /-- No answer before is the end of the input. -/
  proper : ∀ t, .ok t ∈ calls → t.lexeme ≠ .endOfInput
  within : ∀ t, .ok t ∈ calls →
    0 ≤ t.span.start ∧ t.span.start < t.span.stop ∧ t.span.stop ≤ (text.length : Int)
  ordered : (calls.filterMap Except.toOption).Pairwise fun t u => t.span.stop ≤ u.span.start
  bytes : ∀ t, .ok t ∈ calls → t.lexeme.Covers (t.span.slice text)

/-- Whatever the bytes of a text are, reading reaches its end, and every token has the span of the
bytes that it was read from. -/
theorem exists_exact [CharNames] (file : Int) (text : Text) : ∃ calls, Exact file text calls := by
  obtain ⟨calls, hrun, hitems⟩ := Token.exists_items file text
  refine ⟨calls, ?_, ?_, fun t ht => hrun.proper ht, fun t ht => (hrun.within ht).1, ?_,
    fun t ht => (hrun.within ht).2⟩
  · intro n
    rw [ofSource, hitems]
    exact answers_append [] n
  · have hwidth := Cursor.length_le_widthOf (Cursor.ofText text).rest
    rw [Cursor.ofText, Cursor.widthOf_glyphs] at hwidth
    exact Nat.le_trans hrun.length_le hwidth
  · refine (Token.Ordered.pairwise (fun t ht => ?_) (hrun.ordered (Int.le_refl 0))).1
    exact Int.le_of_lt (hrun.within ht).1.2.1

end TokenReader

end LolToolchain
