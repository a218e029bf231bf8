import LolToolchain.Bytecode.Value
import LolToolchain.Proofs.Text.Utf8
import LolToolchain.Token.NameTable

/-!
What every token of a source text is like: its span lies in the source, its text is well-formed
whatever the bytes of the source are, and the variables of a string stand in order inside it. The
faults between the tokens point into the source too, but for one that stands behind its end.
-/
namespace LolToolchain

/-- A span of a source of `size` bytes. -/
structure Span.Within (file : Int) (size : Nat) (s : Span) : Prop where
  file : s.file = file
  start : 0 ≤ s.start
  ordered : s.start ≤ s.stop
  stop : s.stop ≤ size

/-- All spans of a diagnostic have a property. -/
structure Diagnostic.Points (p : Span → Prop) (d : Diagnostic) : Prop where
  span : p d.span
  notes : ∀ n ∈ d.notes, p n.span

namespace Diagnostic

variable {p : Span → Prop} {span : Span} {message : Text}

theorem points_new {kind : Kind} (h : p span) : (new kind span message).Points p :=
  ⟨h, List.forall_mem_singleton.2 h⟩

theorem Points.annotate {d : Diagnostic} (hd : d.Points p) (h : p span) :
    (d.annotate span message).Points p :=
  ⟨hd.span, List.forall_mem_append.2 ⟨hd.notes, List.forall_mem_singleton.2 h⟩⟩

end Diagnostic

/-- What becomes of a computation that may stop with a diagnostic. -/
def Diagnostic.Ends {α : Type} (bad : Diagnostic → Prop) (r : Except Diagnostic α)
    (good : α → Prop) : Prop :=
  match r with
  | .ok a => good a
  | .error d => bad d

namespace Diagnostic.Ends

variable {α β : Type} {bad : Diagnostic → Prop} {r : Except Diagnostic α}
  {f : α → Except Diagnostic β} {good : α → Prop} {good' : β → Prop}

/-- What follows may make use of how the first part came out. -/
theorem bindEq (hr : Ends bad r good) (hf : ∀ a, r = .ok a → good a → Ends bad (f a) good') :
    Ends bad (r >>= f) good' := by
  cases r with
  | error d => exact hr
  | ok a => exact hf a rfl hr

theorem bind (hr : Ends bad r good) (hf : ∀ a, good a → Ends bad (f a) good') :
    Ends bad (r >>= f) good' :=
  hr.bindEq fun a _ ha => hf a ha

theorem mono {good' : α → Prop} (hr : Ends bad r good) (h : ∀ a, good a → good' a) :
    Ends bad r good' := by
  cases r with
  | error d => exact hr
  | ok a => exact h a hr

end Diagnostic.Ends

/-- The fault of an ellipsis at the end of a source of `size` bytes. It takes the place of a byte that
is not there. -/
def Lexer.overrun (file : Int) (size : Nat) : Diagnostic :=
  LexFault.noBreakAfterEllipsis.toDiagnostic ⟨size, size + 1, file⟩

/-- A diagnostic of a source of `size` bytes: it points into the source, or it is the fault of an
ellipsis at the end. -/
def Diagnostic.Located (file : Int) (size : Nat) (d : Diagnostic) : Prop :=
  d.Points (Span.Within file size) ∨ d = Lexer.overrun file size

/-- A place at or behind an offset of a source of `size` bytes. -/
structure Cursor.Beyond (size start : Nat) (c : Cursor) : Prop where
  size : c.pos + widthOf c.rest = size
  start : start ≤ c.pos

variable {file : Int} {size start : Nat}

namespace Template

theorem misplacedFrom_mono {size size' : Nat} (hle : size ≤ size') {previous : Int}
    {offs : List Int} (h : misplacedFrom size previous offs = none) :
    misplacedFrom size' previous offs = none := by
  induction offs generalizing previous with
  | nil => rfl
  | cons off offs ih =>
    rw [misplacedFrom] at h ⊢
    split at h
    · cases h
    · rw [if_neg (by omega)]
      exact ih h

/-- Places in order stay in order when the end of the text is added. -/
theorem misplacedFrom_append {previous : Int} (hp : previous ≤ size) {offs : List Int}
    (h : misplacedFrom size previous offs = none) :
    misplacedFrom size previous (offs ++ [(size : Int)]) = none := by
  induction offs generalizing previous with
  | nil => exact if_neg (by omega)
  | cons off offs ih =>
    rw [List.cons_append, misplacedFrom] at *
    split at h
    · cases h
    · rename_i hoff
      rw [if_neg hoff]
      exact ih (by omega) h

end Template

/-- The places of a string's variables. -/
def Insertion.offsets (insertions : List Insertion) : List Int :=
  insertions.map fun i => (i.offset : Int)

namespace Text

/-- A well-formed text that a string in a source of `size` bytes can spell; a byte of the source
stands for four bytes at most. -/
def Spelled (size : Nat) (t : Text) : Prop :=
  t.isUtf8 = true ∧ t.length ≤ 4 * size

/-- A name that is neither a reserved word nor the mark of a comment. -/
structure IsIdentifier (t : Text) : Prop where
  name : Lexer.isName t = true
  free : Keyword.ofWord? t = none
  lineComment : t ≠ ofString "BTW"
  blockComment : t ≠ ofString "OBTW"

/-- Digits with at most one minus sign in front of them. -/
def IsNumeral (t : Text) : Prop :=
  ∃ sign digits, (sign = [] ∨ sign = ofString "-") ∧ digits ≠ [] ∧
    (∀ d ∈ digits, Lexer.isDigit d = true) ∧ t = sign ++ ofChars digits

/-- A place between two characters of a text. -/
def IsBoundary (t : Text) (n : Nat) : Prop :=
  n ≤ t.length ∧ isUtf8 (t.take n) = true

end Text

/-- A variable inside a string whose text is known. -/
structure Insertion.Valid (file : Int) (size : Nat) (text : Text) (i : Insertion) : Prop where
  place : text.IsBoundary i.offset
  name : Lexer.isName i.name = true
  length : i.name.length ≤ size
  span : i.span.Within file size

/-- A lexeme whose texts are well-formed, with variables in order. -/
def Lexeme.Valid (file : Int) (size : Nat) : Lexeme → Prop
  | .number digits => digits.IsNumeral
  | .string text insertions =>
    text.Spelled size ∧
      Template.misplacedFrom text.length 0 (Insertion.offsets insertions) = none ∧
      ∀ i ∈ insertions, i.Valid file size text
  | .identifier name => name.IsIdentifier ∧ name.length ≤ size
  | _ => True

/-- A valid token from inside its source. -/
structure Token.Valid (file : Int) (size : Nat) (t : Token) : Prop where
  span : t.span.Within file size
  lexeme : t.lexeme.Valid file size

namespace Cursor

variable {c : Cursor}

theorem beyond_ofText (t : Text) : (ofText t).Beyond t.length 0 :=
  ⟨by rw [ofText, widthOf_glyphs, Nat.zero_add], Nat.le_refl _⟩

namespace Beyond

theorem past (h : c.Beyond size start) {gs : List Glyph} (hgs : gs <+: c.rest) :
    (c.past gs).Beyond size start := by
  obtain ⟨rest, hrest⟩ := hgs
  have hsize := h.size
  have hstart := h.start
  rw [← hrest, widthOf_append] at hsize
  refine ⟨?_, by dsimp only [Cursor.past]; omega⟩
  rw [Cursor.past, ← hrest, List.drop_left]
  dsimp only
  omega

theorem skip (h : c.Beyond size start) (n : Nat) : (c.skip n).Beyond size start :=
  h.past (List.take_prefix _ _)

theorem skipWhile (h : c.Beyond size start) (p : Char → Bool) :
    (c.skipWhile p).Beyond size start :=
  h.past (List.takeWhile_prefix _)

theorem pos_le (h : c.Beyond size start) : c.pos ≤ size := by
  have := h.size
  omega

/-- Behind the next glyph, at least one byte is passed. -/
theorem skip_one (h : c.Beyond size start) (hne : c.rest ≠ []) :
    (c.skip 1).Beyond size (c.pos + 1) := by
  obtain ⟨g, rest, hrest⟩ := List.exists_cons_of_ne_nil hne
  have hpos : (c.skip 1).pos = c.pos + g.width := by
    rw [Cursor.skip, Cursor.past, hrest]
    rfl
  refine ⟨(h.skip 1).size, ?_⟩
  rw [hpos]
  exact Nat.add_le_add_left g.one_le_width _

/-- The place itself is where it stands. -/
theorem here (h : c.Beyond size start) : c.Beyond size c.pos :=
  ⟨h.size, Nat.le_refl _⟩

theorem mono (h : c.Beyond size start) {start' : Nat} (hle : start' ≤ start) :
    c.Beyond size start' :=
  ⟨h.size, Nat.le_trans hle h.start⟩

theorem spanFrom (h : c.Beyond size start) : (c.spanFrom file start).Within file size :=
  ⟨rfl, Int.natCast_nonneg _, Int.ofNat_le.2 h.start, Int.ofNat_le.2 h.pos_le⟩

/-- The span of one byte, where there is one. -/
theorem next (h : c.Beyond size start) (hne : c.rest ≠ []) :
    Span.Within file size ⟨c.pos, c.pos + 1, file⟩ := by
  have hsize := h.size
  obtain ⟨g, rest, hrest⟩ := List.exists_cons_of_ne_nil hne
  have hw : widthOf c.rest = g.width + widthOf rest := by
    rw [hrest]
    rfl
  have hg := g.one_le_width
  exact ⟨rfl, Int.natCast_nonneg _, by dsimp only; omega, by dsimp only; omega⟩

end Beyond
end Cursor

namespace Lexer

/-- Something read from an offset on: a valid token or a fault, and a place behind it. -/
structure Scanned.Valid (file : Int) (size start : Nat) (s : Scanned) : Prop where
  token : ∀ t, s.item = .ok t → t.Valid file size
  fault : ∀ d, s.item = .error d → d.Located file size
  next : s.next.Beyond size start

theorem valid_token {c : Cursor} {lexeme : Lexeme} (hc : c.Beyond size start)
    (hl : lexeme.Valid file size) : (token file start c lexeme).Valid file size start where
  token t ht := by
    cases ht
    exact ⟨hc.spanFrom, hl⟩
  fault := nofun
  next := hc

theorem valid_error {c : Cursor} {f : LexFault} {span : Span} (hc : c.Beyond size start)
    (hspan : span.Within file size) :
    (Scanned.mk (.error (f.toDiagnostic span)) c).Valid file size start where
  token := nofun
  fault d hd := by
    cases hd
    exact .inl (Diagnostic.points_new hspan)
  next := hc

theorem valid_fault {c : Cursor} {f : LexFault} {colon : Nat} (hc : c.Beyond size start)
    (hcolon : c.Beyond size colon) : (fault file colon c f).Valid file size start :=
  valid_error hc hcolon.spanFrom

theorem eq_char_of_continuesName {g : Glyph} (h : continuesName g.toChar = true) :
    g = .char g.toChar := by
  cases g with
  | char c => rfl
  | stray b => exact absurd h (show ¬continuesName (Char.ofNat 0xFFFD) = true by decide)

theorem ofGlyphs_of_continuesName {gs : List Glyph} (h : ∀ g ∈ gs, continuesName g.toChar = true) :
    Text.ofGlyphs gs = Text.ofChars (gs.map Glyph.toChar) := by
  induction gs with
  | nil => rfl
  | cons g gs ih =>
    obtain ⟨hg, hgs⟩ := List.forall_mem_cons.1 h
    have hbytes : g.bytes = Text.encodeChar g.toChar := by
      rw [eq_char_of_continuesName hg]
      rfl
    rw [Text.ofGlyphs, List.flatMap_cons, hbytes, List.map_cons, Text.ofChars, List.flatMap_cons]
    exact congrArg _ (ih hgs)

theorem continuesName_of_startsName {c : Char} (h : startsName c = true) :
    continuesName c = true := by
  rw [continuesName, h]
  rfl

theorem continuesName_of_isDigit {c : Char} (h : isDigit c = true) : continuesName c = true := by
  rw [continuesName, h, Bool.or_true]

/-- A name is a character that starts names and characters that names go on with. -/
theorem isName_iff {t : Text} : isName t = true ↔ ∃ c cs, t = Text.ofChars (c :: cs) ∧
    startsName c = true ∧ ∀ c' ∈ cs, continuesName c' = true := by
  constructor
  · intro h
    rw [isName] at h
    split at h
    · cases h
    · rename_i c cs hcons
      obtain ⟨hc, hcs⟩ := Bool.and_eq_true_iff.1 h
      refine ⟨c, cs, ?_, hc, List.all_eq_true.1 hcs⟩
      rw [← hcons, ← ofGlyphs_of_continuesName, Text.ofGlyphs_glyphs]
      intro g hg
      have hmem := List.mem_map_of_mem (f := Glyph.toChar) hg
      rw [hcons] at hmem
      rcases List.mem_cons.1 hmem with heq | hmem
      · rw [heq]
        exact continuesName_of_startsName hc
      · exact List.all_eq_true.1 hcs _ hmem
  · rintro ⟨c, cs, rfl, hc, hcs⟩
    have hchars : (Text.ofChars (c :: cs)).glyphs.map Glyph.toChar = c :: cs := by
      rw [Text.glyphs_ofChars, List.map_map]
      exact List.map_id _
    rw [isName, hchars]
    exact Bool.and_eq_true_iff.2 ⟨hc, List.all_eq_true.2 hcs⟩

theorem isUtf8_of_isName {t : Text} (h : isName t = true) : t.isUtf8 = true := by
  obtain ⟨c, cs, rfl, -⟩ := isName_iff.1 h
  exact Text.isUtf8_ofChars _

/-- The glyphs that a condition holds for start with the one at hand, if it does. -/
theorem exists_ahead {c : Cursor} {p : Char → Bool} {ch : Char} (hch : c.peek? 0 = some ch)
    (hp : p ch = true) : ∃ gs, (c.ahead p).map Glyph.toChar = ch :: gs ∧ ∀ d ∈ gs, p d = true := by
  obtain ⟨pos, rest⟩ := c
  cases rest with
  | nil => cases hch
  | cons g rest =>
    have hg : g.toChar = ch := Option.some.inj hch
    refine ⟨(rest.takeWhile fun g => p g.toChar).map Glyph.toChar, ?_, ?_⟩
    · rw [Cursor.ahead, List.takeWhile_cons_of_pos (by rw [hg]; exact hp), List.map_cons, hg]
    · intro d hd
      obtain ⟨g', hg', rfl⟩ := List.mem_map.1 hd
      exact List.all_eq_true.1 List.all_takeWhile g' hg'

theorem length_ahead_le {c : Cursor} (hc : c.Beyond size start) (p : Char → Bool) :
    (Text.ofGlyphs (c.ahead p)).length ≤ size := by
  obtain ⟨rest, hrest⟩ := List.takeWhile_prefix (p := fun g : Glyph => p g.toChar) (l := c.rest)
  have hsize := hc.size
  rw [← hrest, Cursor.widthOf_append] at hsize
  rw [← Cursor.widthOf_eq, Cursor.ahead]
  omega

theorem beyond_delimited {closer : Char} {c : Cursor} {r : Text × Cursor} {colon : Nat}
    (hc : c.Beyond size start) (h : delimited file colon closer c = .ok r) :
    r.2.Beyond size start := by
  dsimp only [delimited] at h
  split at h
  · cases h
    exact ((hc.skip 1).past (List.takeWhile_prefix _)).skip 1
  · cases h

private theorem length_delimited_le_size {closer : Char} {c : Cursor} {r : Text × Cursor} {colon : Nat}
    (hc : c.Beyond size start) (h : delimited file colon closer c = .ok r) : r.1.length ≤ size := by
  dsimp only [delimited] at h
  split at h
  · cases h
    exact length_ahead_le (hc.skip 1) _
  · cases h

theorem valid_delimited {closer : Char} {c : Cursor} {s : Scanned} {colon : Nat}
    (hc : c.Beyond size start) (hcolon : c.Beyond size colon)
    (h : delimited file colon closer c = .error s) : s.Valid file size start := by
  dsimp only [delimited] at h
  split at h
  · cases h
  · cases h
    exact valid_fault ((hc.skip 1).past (List.takeWhile_prefix _))
      ((hcolon.skip 1).past (List.takeWhile_prefix _))

/-- What an escape inserts is a name. -/
def Escape.Valid (size : Nat) : Escape → Prop
  | .char _ => True
  | .insertion name => isName name = true ∧ name.length ≤ size

/-- What reading an escape leads to. -/
def Escaped (file : Int) (size start : Nat) : Except Scanned (Escape × Cursor) → Prop
  | .ok (e, behind) => e.Valid size ∧ behind.Beyond size start
  | .error s => s.Valid file size start

private theorem escaped_named [CharNames] {closer : Char} {c : Cursor} {colon : Nat}
    (hc : c.Beyond size start) (hcolon : c.Beyond size colon) :
    Escaped file size start (escape.named file colon c closer) := by
  dsimp only [escape.named, bind, Except.bind]
  split
  · rename_i s hs
    exact valid_delimited hc hcolon hs
  · rename_i r hr
    split
    · exact ⟨trivial, beyond_delimited hc hr⟩
    · exact valid_fault (beyond_delimited hc hr) (beyond_delimited hcolon hr)

theorem escaped_escape [CharNames] {c : Cursor} {colon : Nat} (hc : c.Beyond size start)
    (hcolon : c.Beyond size colon) : Escaped file size start (escape file colon c) := by
  have h1 := hc.skip 1
  rw [escape]
  split
  case h_1 => exact valid_fault hc hcolon
  case h_2 | h_3 | h_4 | h_5 | h_6 => exact ⟨trivial, h1⟩
  case h_7 =>
    dsimp only [bind, Except.bind]
    split
    · rename_i s hs
      exact valid_delimited hc hcolon hs
    · rename_i r hr
      split
      · exact ⟨trivial, beyond_delimited hc hr⟩
      · exact valid_fault (beyond_delimited hc hr) (beyond_delimited hcolon hr)
  case h_8 | h_9 => exact escaped_named hc hcolon
  case h_10 =>
    dsimp only [bind, Except.bind]
    split
    · rename_i s hs
      exact valid_delimited hc hcolon hs
    · rename_i r hr
      split
      · rename_i hname
        exact ⟨⟨hname, length_delimited_le_size hc hr⟩, beyond_delimited hc hr⟩
      · exact valid_fault (beyond_delimited hc hr) (beyond_delimited hcolon hr)
  case h_11 => exact valid_fault h1 (hcolon.skip 1)

/-- What has been read of a string up to an offset of the source. -/
structure Partial (file : Int) (size : Nat) (text : Text) (insertions : List Insertion)
    (pos : Nat) : Prop where
  chars : ∃ cs, text = Text.ofChars cs
  length : text.length ≤ 4 * pos
  ordered : Template.misplacedFrom text.length 0 (Insertion.offsets insertions) = none
  inserted : ∀ i ∈ insertions, i.Valid file size text

namespace Partial

variable {text : Text} {insertions : List Insertion} {pos pos' : Nat}

theorem nil : Partial file size [] [] pos :=
  ⟨⟨[], rfl⟩, Nat.zero_le _, rfl, nofun⟩

private theorem char (h : Partial file size text insertions pos) (c : Char) (hpos : pos + 1 ≤ pos') :
    Partial file size (text ++ Text.encodeChar c) insertions pos' where
  chars := by
    obtain ⟨cs, rfl⟩ := h.chars
    refine ⟨cs ++ [c], ?_⟩
    rw [Text.ofChars, Text.ofChars, List.flatMap_append, List.flatMap_singleton]
  length := by
    have hlength := h.length
    have hchar := Text.length_encodeChar_le c
    rw [List.length_append]
    omega
  ordered := by
    refine Template.misplacedFrom_mono ?_ h.ordered
    rw [List.length_append]
    exact Nat.le_add_right _ _
  inserted i hi := by
    obtain ⟨⟨hlength, hprefix⟩, hname, hshort, hspan⟩ := h.inserted i hi
    refine ⟨⟨?_, ?_⟩, hname, hshort, hspan⟩
    · rw [List.length_append]
      exact Nat.le_trans hlength (Nat.le_add_right _ _)
    · rwa [List.take_append_of_le_length hlength]

private theorem insert (h : Partial file size text insertions pos) {i : Insertion}
    (hoffset : i.offset = text.length) (hname : isName i.name = true)
    (hshort : i.name.length ≤ size) (hspan : i.span.Within file size) (hpos : pos ≤ pos') :
    Partial file size text (insertions ++ [i]) pos' where
  chars := h.chars
  length := Nat.le_trans h.length (Nat.mul_le_mul_left 4 hpos)
  ordered := by
    rw [Insertion.offsets, List.map_append, List.map_singleton, hoffset]
    exact Template.misplacedFrom_append (Int.natCast_nonneg _) h.ordered
  inserted := by
    refine List.forall_mem_append.2 ⟨h.inserted, List.forall_mem_singleton.2 ?_⟩
    obtain ⟨cs, hcs⟩ := h.chars
    refine ⟨⟨Nat.le_of_eq hoffset, ?_⟩, hname, hshort, hspan⟩
    rw [hoffset, List.take_length, hcs]
    exact Text.isUtf8_ofChars cs

private theorem valid (h : Partial file size text insertions pos) (hpos : pos ≤ size) :
    (Lexeme.string text insertions).Valid file size := by
  obtain ⟨cs, hcs⟩ := h.chars
  exact ⟨⟨hcs ▸ Text.isUtf8_ofChars cs, Nat.le_trans h.length (Nat.mul_le_mul_left 4 hpos)⟩,
    h.ordered, h.inserted⟩

end Partial

theorem valid_stringBody [CharNames] {text : Text} {insertions : List Insertion} {c : Cursor}
    (hc : c.Beyond size start) (h : Partial file size text insertions c.pos) :
    (stringBody file start text insertions c).Valid file size start := by
  fun_induction stringBody file start text insertions c with
  | case1 => exact valid_fault hc hc
  | case2 => exact valid_token (hc.skip 1) (h.valid hc.pos_le)
  | case3 text insertions c g _ _ next _ _ _ s he =>
    have hs : Escaped file size start (escape file c.pos next) := escaped_escape (hc.skip 1)
      (hc.here.skip 1)
    rw [he] at hs
    exact hs
  | case4 text insertions c g rest hrest next _ _ _ ch behind he _ ih =>
    have hne : c.rest ≠ [] := by
      rw [hrest]
      exact List.cons_ne_nil _ _
    have hs : Escaped file size (c.pos + 1) (escape file c.pos next) :=
      escaped_escape (hc.skip_one hne) (hc.here.skip 1)
    rw [he] at hs
    exact ih (hs.2.mono (Nat.le_succ_of_le hc.start)) (h.char ch hs.2.start)
  | case5 text insertions c g _ _ next _ _ _ name behind he _ ih =>
    have hs : Escaped file size c.pos (escape file c.pos next) := escaped_escape (hc.here.skip 1)
      (hc.here.skip 1)
    rw [he] at hs
    exact ih (hs.2.mono hc.start) (h.insert rfl hs.1.1 hs.1.2 hs.2.spanFrom hs.2.start)
  | case6 text insertions c g rest hrest next _ _ _ ih =>
    have hne : c.rest ≠ [] := by
      rw [hrest]
      exact List.cons_ne_nil _ _
    exact ih (hc.skip 1) (h.char _ (hc.skip_one hne).start)

theorem beyond_breaks {pos : Nat} {gs : List Glyph} (h : Cursor.Beyond size start ⟨pos, gs⟩) :
    (skipBreaks.go pos gs).Beyond size start := by
  fun_induction skipBreaks.go pos gs with
  | case1 pos rest ih => exact ih (h.skip 1)
  | case2 pos rest ih => exact ih (h.skip 2)
  | case3 => exact h

private theorem beyond_lineComment {pos : Nat} {gs : List Glyph} (h : Cursor.Beyond size start ⟨pos, gs⟩) :
    (skipLineComment.go pos gs).Beyond size start := by
  fun_induction skipLineComment.go pos gs with
  | case1 | case2 | case3 => exact h
  | case4 pos g rest _ _ ih => exact ih (h.skip 1)

private theorem beyond_blockComment {pos : Nat} {gs : List Glyph}
    (h : Cursor.Beyond size start ⟨pos, gs⟩) : (skipBlockComment.go pos gs).Beyond size start := by
  fun_induction skipBlockComment.go pos gs with
  | case1 => exact h
  | case2 pos rest => exact h.skip 4
  | case3 pos g rest _ ih => exact ih (h.skip 1)

/-- What a step from an offset leads to. -/
def Step.Valid (file : Int) (size start : Nat) : Step → Prop
  | .stop => True
  | .gap next => next.Beyond size start
  | .item s => s.Valid file size start

/-- Behind an ellipsis at the end of the source the fault takes the place of a byte that is not
there. -/
private theorem located_continuation {c : Cursor} (hc : c.Beyond size start) :
    (LexFault.noBreakAfterEllipsis.toDiagnostic ⟨c.pos, c.pos + 1, file⟩).Located file size := by
  by_cases hne : c.rest = []
  · have hsize := hc.size
    rw [hne] at hsize
    exact .inr (by rw [overrun, ← hsize]; rfl)
  · exact .inl (Diagnostic.points_new (hc.next hne))

private theorem valid_continued {c : Cursor} (hc : c.Beyond size start) :
    (continued file c).Valid file size start := by
  have hgap := hc.skipWhile isGap
  rw [continued]
  split
  · rename_i behind h
    dsimp only [continuation] at h
    split at h
    · cases h
      exact hgap.skip 1
    · split at h
      · cases h
        exact hgap.skip 2
      · cases h
  · rename_i s h
    dsimp only [continuation] at h
    split at h
    · cases h
    · split at h
      · cases h
      · cases h
        refine ⟨fun t ht => ?_, fun d hd => ?_, hgap.skip 1⟩
        · cases ht
        · cases hd
          exact located_continuation hgap

private theorem valid_named {c : Cursor} {ch : Char} (hc : c.Beyond size c.pos)
    (hch : c.peek? 0 = some ch) (hstart : startsName ch = true) :
    (named file c).Valid file size c.pos := by
  have hbehind := hc.skipWhile continuesName
  dsimp only [named]
  split
  · exact beyond_lineComment hbehind
  · rename_i hline
    split
    · exact beyond_blockComment hbehind
    · rename_i hblock
      dsimp only [word]
      split
      · exact valid_token hbehind trivial
      · rename_i hword
        obtain ⟨cs, hahead, hcs⟩ := exists_ahead hch (continuesName_of_startsName hstart)
        have hchars : Text.ofGlyphs (c.ahead continuesName) = Text.ofChars (ch :: cs) := by
          rw [← hahead]
          exact ofGlyphs_of_continuesName (List.all_eq_true.1 List.all_takeWhile)
        refine valid_token hbehind ⟨⟨?_, hword, ?_, ?_⟩, length_ahead_le hc _⟩
        · exact isName_iff.2 ⟨ch, cs, hchars, hstart, hcs⟩
        · exact fun heq => hline (beq_iff_eq.2 heq)
        · exact fun heq => hblock (beq_iff_eq.2 heq)

/-- The digits ahead are a number, also behind a minus sign. -/
private theorem isNumeral_ahead {c : Cursor} {ch : Char} (hch : c.peek? 0 = some ch)
    (hdigit : isDigit ch = true) {sign : Text} (hsign : sign = [] ∨ sign = Text.ofString "-") :
    (sign ++ Text.ofGlyphs (c.ahead isDigit)).IsNumeral := by
  obtain ⟨ds, hahead, hds⟩ := exists_ahead hch hdigit
  refine ⟨sign, ch :: ds, hsign, List.cons_ne_nil _ _, List.forall_mem_cons.2 ⟨hdigit, hds⟩, ?_⟩
  rw [← hahead, ofGlyphs_of_continuesName]
  exact fun g hg => continuesName_of_isDigit (List.all_eq_true.1 List.all_takeWhile g hg)

private theorem Step.valid_ite {p : Prop} [Decidable p] {a b : Step}
    (ha : p → a.Valid file size start) (hb : b.Valid file size start) :
    (if p then a else b).Valid file size start := by
  split
  · exact ha (by assumption)
  · exact hb

private theorem valid_step [CharNames] {c : Cursor} (hc : c.Beyond size c.pos) :
    (step file c).Valid file size c.pos := by
  have h1 := hc.skip 1
  dsimp only [step]
  split
  · trivial
  · rename_i ch hch
    have hne : c.rest ≠ [] := by
      intro hnil
      rw [Cursor.peek?, hnil] at hch
      cases hch
    have hmark {lexeme : Lexeme} (hl : lexeme.Valid file size) :
        (Step.item (token file c.pos (c.skip 1) lexeme)).Valid file size c.pos := valid_token h1 hl
    refine Step.valid_ite (fun _ => h1) (Step.valid_ite (fun _ => ?_) ?_)
    · refine ⟨fun t ht => ?_, fun d hd => ?_, beyond_breaks hc⟩
      · cases ht
        exact ⟨hc.next hne, trivial⟩
      · cases hd
    refine Step.valid_ite (fun _ => hmark trivial) (Step.valid_ite (fun _ => hmark trivial)
      (Step.valid_ite (fun _ => hmark trivial)
      (Step.valid_ite (fun _ => valid_continued (hc.skip 3))
      (Step.valid_ite (fun _ => valid_continued h1) (Step.valid_ite (fun _ => hmark trivial) ?_)))))
    refine Step.valid_ite (fun _ => valid_stringBody h1 .nil)
      (Step.valid_ite (fun _ => Step.valid_ite (fun hdigit => ?_) (valid_fault h1 h1)) ?_)
    · obtain ⟨d, hd, hdigit⟩ := (Option.any_eq_true _ _).1 hdigit
      exact valid_token (h1.skipWhile isDigit) (isNumeral_ahead hd hdigit (.inr rfl))
    · exact Step.valid_ite
        (fun hdigit => valid_token (hc.skipWhile isDigit) (isNumeral_ahead hch hdigit (.inl rfl)))
        (Step.valid_ite (fun hstart => valid_named hc hch hstart) (valid_error h1 (hc.next hne)))

theorem valid_itemsFrom [CharNames] {c : Cursor} (hc : c.Beyond size 0) :
    (∀ t, .ok t ∈ itemsFrom file size c → t.Valid file size) ∧
      ∀ d, .error d ∈ itemsFrom file size c → d.Located file size := by
  fun_induction itemsFrom file size c with
  | case1 c hs =>
    refine ⟨fun t ht => ?_, fun d hd => by cases List.mem_singleton.1 hd⟩
    cases List.mem_singleton.1 ht
    exact ⟨⟨rfl, Int.natCast_nonneg _, Int.le_refl _, Int.le_refl _⟩, trivial⟩
  | case2 c next hs _ ih =>
    have hstep : (step file c).Valid file size c.pos := valid_step hc.here
    rw [hs] at hstep
    exact ih (hstep.mono (Nat.zero_le _))
  | case3 c s hs _ ih =>
    have hstep : (step file c).Valid file size c.pos := valid_step hc.here
    rw [hs] at hstep
    obtain ⟨htokens, hfaults⟩ := ih (hstep.next.mono (Nat.zero_le _))
    refine ⟨fun t ht => ?_, fun d hd => ?_⟩
    · rcases List.mem_cons.1 ht with heq | ht
      · exact hstep.token t heq.symm
      · exact htokens t ht
    · rcases List.mem_cons.1 hd with heq | hd
      · exact hstep.fault d heq.symm
      · exact hfaults d hd

end Lexer

/-- Every token of a source text is valid. -/
theorem Token.valid_items [CharNames] {text : Text} {t : Token} (h : .ok t ∈ items file text) :
    t.Valid file text.length :=
  (Lexer.valid_itemsFrom (Cursor.beyond_ofText text)).1 t h

/-- Every fault in a source text points into it, or is that of an ellipsis at its end. -/
theorem Token.located_items [CharNames] {text : Text} {d : Diagnostic}
    (h : .error d ∈ items file text) : d.Located file text.length :=
  (Lexer.valid_itemsFrom (Cursor.beyond_ofText text)).2 d h

end LolToolchain
