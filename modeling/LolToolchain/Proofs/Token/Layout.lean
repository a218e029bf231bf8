import LolToolchain.Proofs.Token.Spelling
import LolToolchain.Text.CommonNames

/-!
Lexemes written with any layout. Each one has one of its spellings, and between neighbours stands a
blank with whatever may follow it: blanks, continued lines and comments. The items of the text are
tokens with these lexemes.
-/
namespace LolToolchain

namespace Lexer

/-- What may stand between lexemes behind the first blank. -/
inductive Filler : Text → Prop
  | blank {t : Text} (h : Blank t) : Filler t
  | ellipsis {dots stop : Text} {blanks : List Text} (hdots : dots = "..." ∨ dots = "…")
    (hblanks : ∀ t ∈ blanks, Blank t) (hstop : LineEnd stop) :
    Filler (dots ++ blanks.flatten ++ stop)
  | remark {body : Text} (hne : body ≠ []) (hfirst : Detached body)
    (hbody : ¬Text.ofString "TLDR" <:+: body) : Filler ("OBTW" ++ body ++ "TLDR")

/-- What stands between two lexemes. -/
inductive Gap : Text → Prop
  | mk {blank : Text} {fillers : List Text} (hblank : Blank blank)
    (hfillers : ∀ t ∈ fillers, Filler t) : Gap (blank ++ fillers.flatten)

end Lexer

/-- Lexemes laid out as a text. -/
inductive Lexeme.Laid : List Lexeme → Text → Prop
  | nil : Laid [] []
  | last {l : Lexeme} {t : Text} (h : l.Spelling t) : Laid [l] t
  | cons {l next : Lexeme} {ls : List Lexeme} {t gap rest : Text} (h : l.Spelling t)
    (hgap : Lexer.Gap gap) (hrest : Laid (next :: ls) rest) :
    Laid (l :: next :: ls) (t ++ (gap ++ rest))

namespace Lexer

open Cursor

variable {rest : List Glyph}

theorem LineEnd.closed {stop : Text} (h : LineEnd stop) : stop.IsClosed := by
  obtain ⟨c, cs, rfl, -⟩ := h.exists_chars
  exact Text.closed_ofChars _

theorem closed_flatten {ts : List Text} (h : ∀ t ∈ ts, t.IsClosed) : Text.IsClosed ts.flatten := by
  induction ts with
  | nil => exact fun _ => rfl
  | cons t ts ih =>
    obtain ⟨ht, hts⟩ := List.forall_mem_cons.1 h
    exact ht.append (ih hts)

theorem Filler.closed {t : Text} (h : Filler t) : t.IsClosed := by
  cases h with
  | blank h => exact h.closed
  | ellipsis hdots hblanks hstop =>
    have hclosed := closed_flatten fun t ht => (hblanks t ht).closed
    rcases hdots with rfl | rfl <;>
      exact ((Text.closed_ofString _).append hclosed).append hstop.closed
  | remark => exact Text.closed_append_ofChars _ 'T' ['L', 'D', 'R']

theorem closed_spelling {l : Lexeme} {t : Text} (h : l.Spelling t) : t.IsClosed := by
  cases h with
  | keyword | question | bang | dot | comma => exact Text.closed_ofString _
  | string => exact Text.closed_ofChars _
  | identifier h =>
    rw [← Text.ofChars_chars (isUtf8_of_isName h.name)]
    exact Text.closed_ofChars _
  | number h =>
    obtain ⟨sign, ds, rfl | rfl, -, -, rfl⟩ := h
    · exact Text.closed_ofChars ds
    · exact (Text.closed_ofString _).append (Text.closed_ofChars ds)
  | line h => exact h.closed
  | remark _ _ _ hstop =>
    obtain ⟨c, cs, rfl, -⟩ := hstop.exists_chars
    exact Text.closed_append_ofChars _ c cs

/-- Some glyphs in front of others in which nothing is found. -/
def Skips [CharNames] (file : Int) (size : Nat) (gs rest : List Glyph) : Prop :=
  ∀ pos, ∃ pos', itemsFrom file size ⟨pos, gs ++ rest⟩ = itemsFrom file size ⟨pos', rest⟩

theorem skips_blank [CharNames] (file : Int) (size : Nat) {t : Text} (h : Blank t) :
    Skips file size t.glyphs rest := by
  intro pos
  obtain ⟨pos', hstep⟩ := step_blank file h pos rest
  exact ⟨pos', itemsFrom_of_gap hstep⟩

/-- Behind an ellipsis, blanks and a line end are passed over. -/
private theorem continued_eq (file : Int) {stop : Text} (hstop : LineEnd stop) {blanks : List Glyph}
    (hblanks : ∀ g ∈ blanks, isGap g.toChar = true) (pos : Nat) (rest : List Glyph) :
    ∃ pos', continued file ⟨pos, blanks ++ (stop.glyphs ++ rest)⟩ = .gap ⟨pos', rest⟩ := by
  have hbehind : ∀ g ∈ (stop.glyphs ++ rest).head?, isGap g.toChar = false := by
    intro g hg
    cases hstop <;> cases hg <;> rfl
  obtain ⟨p₁, hskip⟩ := skipWhile_append pos hblanks hbehind
  rw [continued, continuation, hskip]
  cases hstop <;> exact ⟨_, rfl⟩

private theorem step_ellipsis [CharNames] (file : Int) {dots : Text} (hdots : dots = "..." ∨ dots = "…")
    (pos : Nat) (rest : List Glyph) :
    ∃ pos', step file ⟨pos, dots.glyphs ++ rest⟩ = continued file ⟨pos', rest⟩ := by
  rcases hdots with rfl | rfl
  · rw [show Text.glyphs "..." = [.char '.', .char '.', .char '.'] from
      Text.glyphs_ofChars ['.', '.', '.']]
    exact ⟨_, rfl⟩
  · rw [show Text.glyphs "…" = [.char '…'] from Text.glyphs_ofChars ['…']]
    exact ⟨_, rfl⟩

private theorem isGap_of_mem_blanks {blanks : List Text} (h : ∀ t ∈ blanks, Blank t) :
    ∀ g ∈ Text.glyphs blanks.flatten, isGap g.toChar = true := by
  induction blanks with
  | nil => nofun
  | cons t ts ih =>
    obtain ⟨ht, hts⟩ := List.forall_mem_cons.1 h
    rw [List.flatten_cons, ht.closed]
    refine List.forall_mem_append.2 ⟨?_, ih hts⟩
    cases ht <;> exact List.forall_mem_singleton.2 rfl

private theorem skips_ellipsis [CharNames] (file : Int) (size : Nat) {dots stop : Text} {blanks : List Text}
    (hdots : dots = "..." ∨ dots = "…") (hblanks : ∀ t ∈ blanks, Blank t) (hstop : LineEnd stop) :
    Skips file size (Text.glyphs (dots ++ blanks.flatten ++ stop)) rest := by
  intro pos
  have hdotted : dots.IsClosed := by
    rcases hdots with rfl | rfl <;> exact Text.closed_ofString _
  have hblank := closed_flatten fun t ht => (hblanks t ht).closed
  obtain ⟨p₁, hstep⟩ := step_ellipsis file hdots pos
    (Text.glyphs blanks.flatten ++ (stop.glyphs ++ rest))
  obtain ⟨p₂, hcontinued⟩ := continued_eq file hstop (isGap_of_mem_blanks hblanks) p₁ rest
  refine ⟨p₂, ?_⟩
  rw [hdotted.append hblank, hdotted, List.append_assoc, List.append_assoc]
  exact itemsFrom_of_gap (hstep.trans hcontinued)

private theorem isInfix_of_glyphs {t u : Text} (h : t.glyphs <:+: u.glyphs) : t <:+: u := by
  obtain ⟨gs, hs, heq⟩ := h
  refine ⟨Text.ofGlyphs gs, Text.ofGlyphs hs, ?_⟩
  rw [← Text.ofGlyphs_glyphs u, ← heq, Text.ofGlyphs, Text.ofGlyphs, Text.ofGlyphs,
    List.flatMap_append, List.flatMap_append]
  exact congrArg (fun v => _ ++ v ++ _) (Text.ofGlyphs_glyphs t).symm

private theorem skips_remark [CharNames] (file : Int) (size : Nat) {body : Text} (hne : body ≠ [])
    (hfirst : Detached body) (hbody : ¬Text.ofString "TLDR" <:+: body) :
    Skips file size (Text.glyphs ("OBTW" ++ body ++ "TLDR")) rest := by
  intro pos
  have hmark : Text.glyphs "TLDR" = [.char 'T', .char 'L', .char 'D', .char 'R'] :=
    Text.glyphs_ofChars ['T', 'L', 'D', 'R']
  have hglyphs : Text.glyphs ("OBTW" ++ body ++ "TLDR") ++ rest =
      Text.glyphs "OBTW" ++
        (body.glyphs ++ .char 'T' :: .char 'L' :: .char 'D' :: .char 'R' :: rest) := by
    have hend := Text.glyphs_append_ofChars body 'T' ['L', 'D', 'R'] []
    rw [List.append_nil] at hend
    rw [List.append_assoc, Text.closed_ofString, show Text.glyphs (body ++ Text.ofString "TLDR") =
      body.glyphs ++ Text.glyphs "TLDR" from hend, hmark]
    simp only [List.append_assoc, List.cons_append, List.nil_append]
  obtain ⟨g, gs, hcons⟩ : ∃ g gs, body.glyphs = g :: gs := by
    refine List.exists_cons_of_ne_nil fun hnil => hne ?_
    rw [← Text.ofGlyphs_glyphs body, hnil]
    rfl
  have hbehind : ∀ h ∈ (body.glyphs ++
      .char 'T' :: .char 'L' :: .char 'D' :: .char 'R' :: rest).head?,
      continuesName h.toChar = false := by
    rw [hcons]
    intro h hh
    cases hh
    exact hfirst g (by rw [hcons]; rfl)
  obtain ⟨p₁, hword⟩ := step_word file pos "OBTW" (by decide) hbehind
  obtain ⟨p₂, hcomment⟩ := skipBlockComment_append
    (fun h => hbody (isInfix_of_glyphs (hmark ▸ h))) p₁ rest
  have hskip : skipBlockComment ⟨p₁, body.glyphs ++
      .char 'T' :: .char 'L' :: .char 'D' :: .char 'R' :: rest⟩ = ⟨p₂, rest⟩ := hcomment
  rw [if_neg (by decide), if_pos (by decide), hskip] at hword
  rw [hglyphs]
  exact ⟨p₂, itemsFrom_of_gap hword⟩

private theorem skips_filler [CharNames] (file : Int) (size : Nat) {t : Text} (h : Filler t) :
    Skips file size t.glyphs rest := by
  cases h with
  | blank h => exact skips_blank file size h
  | ellipsis hdots hblanks hstop => exact skips_ellipsis file size hdots hblanks hstop
  | remark hne hfirst hbody => exact skips_remark file size hne hfirst hbody

/-- Nothing is found in a gap. -/
private theorem skips_gap [CharNames] (file : Int) (size : Nat) {gap : Text} (h : Gap gap) :
    Skips file size gap.glyphs rest := by
  have hfill {ts : List Text} (hts : ∀ t ∈ ts, Filler t) :
      Skips file size (Text.glyphs ts.flatten) rest := by
    induction ts with
    | nil => exact fun pos => ⟨pos, rfl⟩
    | cons t ts ih =>
      intro pos
      obtain ⟨ht, hts⟩ := List.forall_mem_cons.1 hts
      obtain ⟨p₁, hfirst⟩ : ∃ p₁, itemsFrom file size
          ⟨pos, t.glyphs ++ (Text.glyphs ts.flatten ++ rest)⟩ = itemsFrom file size ⟨p₁, _⟩ :=
        skips_filler file size ht pos
      obtain ⟨p₂, hrest⟩ := ih hts p₁
      refine ⟨p₂, ?_⟩
      rw [List.flatten_cons, ht.closed, List.append_assoc]
      exact hfirst.trans hrest
  intro pos
  cases h with
  | @mk blank fillers hblank hfillers =>
    obtain ⟨p₁, hfirst⟩ : ∃ p₁, itemsFrom file size
        ⟨pos, blank.glyphs ++ (Text.glyphs fillers.flatten ++ rest)⟩ = itemsFrom file size ⟨p₁, _⟩ :=
      skips_blank file size hblank pos
    obtain ⟨p₂, hrest⟩ := hfill hfillers p₁
    refine ⟨p₂, ?_⟩
    rw [hblank.closed, List.append_assoc]
    exact hfirst.trans hrest

private theorem Gap.closed {gap : Text} (h : Gap gap) : gap.IsClosed := by
  cases h with
  | mk hblank hfillers =>
    exact hblank.closed.append (closed_flatten fun t ht => (hfillers t ht).closed)

/-- A gap is no part of the lexeme in front of it. -/
private theorem absorbs_blank (l : Lexeme) {gap : Text} (h : Gap gap) :
    ∀ g ∈ (gap.glyphs ++ rest).head?, l.absorbs g.toChar = false := by
  intro g hg
  cases h with
  | mk hblank hfillers =>
    rw [hblank.closed] at hg
    cases hblank <;> cases hg <;> cases l <;> rfl

/-- The items of lexemes that are laid out are tokens with these lexemes, and the end. -/
private theorem itemsFrom_laid [CharNames] (file : Int) (size : Nat) {ls : List Lexeme} {t : Text}
    (h : Lexeme.Laid ls t)
    (pos : Nat) : ∃ ts : List Token, ts.map (fun t => t.lexeme.unspanned) = ls ∧
      itemsFrom file size ⟨pos, t.glyphs⟩ =
        (ts ++ [Token.mk .endOfInput ⟨size, size, file⟩]).map .ok := by
  induction h generalizing pos with
  | nil =>
    refine ⟨[], rfl, ?_⟩
    rw [itemsFrom_eq_match]
    rfl
  | @last l t h =>
    obtain ⟨u, p₁, hlexeme, hitems⟩ : Finds file size l [] ⟨pos, t.glyphs ++ []⟩ :=
      finds_spelling h nofun
    rw [List.append_nil] at hitems
    refine ⟨[u], by rw [List.map_singleton, hlexeme], ?_⟩
    rw [hitems, itemsFrom_eq_match]
    rfl
  | @cons l next ls t gap rest h hgap _ ih =>
    obtain ⟨u, p₁, hlexeme, hitem⟩ : Finds file size l (gap.glyphs ++ rest.glyphs)
        ⟨pos, t.glyphs ++ (gap.glyphs ++ rest.glyphs)⟩ := finds_spelling h (absorbs_blank l hgap)
    obtain ⟨p₂, hskips⟩ : ∃ p₂, itemsFrom file size ⟨p₁, gap.glyphs ++ rest.glyphs⟩ =
      itemsFrom file size ⟨p₂, _⟩ := skips_gap file size hgap p₁
    obtain ⟨ts, hts, hitems⟩ := ih p₂
    refine ⟨u :: ts, by rw [List.map_cons, hlexeme, hts], ?_⟩
    rw [closed_spelling h, hgap.closed, hitem, hskips, hitems]
    rfl

end Lexer

/-- Whatever the layout of a text is, its tokens are the lexemes that it was written from. -/
theorem Lexeme.Laid.reads_back [CharNames] (file : Int) {ls : List Lexeme} {text : Text}
    (h : Laid ls text) : ∃ ts : List Token, ts.map (fun t => t.lexeme.unspanned) = ls ∧
      Token.items file text =
        (ts ++ [Token.mk .endOfInput ⟨text.length, text.length, file⟩]).map .ok :=
  Lexer.itemsFrom_laid file text.length h 0

attribute [local instance] CharNames.common

theorem Lexeme.Laid.reads_back_scattered :
    let ls : List Lexeme := [.keyword .VISIBLE "VISIBLE", .string "AB" [⟨1, "x", .zero⟩], .lineBreak,
      .number "-7"]
    let text : Text := "VISIBLE OBTW ?TLDR...\n\":(41):{x}B\"\t BTW done\r\n -7"
    Laid ls text ∧ ∃ ts : List Token, ts.map (fun t => t.lexeme.unspanned) = ls ∧
      Token.items 0 text = (ts ++ [Token.mk .endOfInput ⟨49, 49, 0⟩]).map .ok := by
  have hword : Spelling (.keyword .VISIBLE "VISIBLE") "VISIBLE" := .keyword (by decide)
  have hletter : Lexer.CharForm 'A' [':', '(', '4', '1', ')'] :=
    @Lexer.CharForm.code 'A' [(false, 4), (false, 1)] (by decide) (by decide)
  have hstring : Spelling (.string "AB" [⟨1, "x", .zero⟩]) "\":(41):{x}B\"" :=
    .string (((Lexer.Quoted.nil.char hletter).insertion (by decide)).char
      (@Lexer.CharForm.raw 'B' (by decide) (by decide)))
  have hbreak : Spelling .lineBreak " BTW done\r\n" :=
    @Spelling.remark " " " done" "\r\n" .space (by decide) (by decide) .crlf
  have hnumber : Spelling (.number "-7") "-7" :=
    .number ⟨"-", ['7'], .inr rfl, by decide, List.forall_mem_singleton.2 rfl, rfl⟩
  have hcomment : Lexer.Filler "OBTW ?TLDR" :=
    @Lexer.Filler.remark " ?" (by decide) (by decide) (by decide)
  have hdots : Lexer.Filler "...\n" := @Lexer.Filler.ellipsis "..." "\n" [] (.inl rfl) nofun .lf
  have hgap : Lexer.Gap " OBTW ?TLDR...\n" := @Lexer.Gap.mk " " ["OBTW ?TLDR", "...\n"] .space
    (List.forall_mem_cons.2 ⟨hcomment, List.forall_mem_singleton.2 hdots⟩)
  have hblank {t : Text} (h : Lexer.Blank t) : Lexer.Gap t :=
    List.append_nil t ▸ @Lexer.Gap.mk t [] h nofun
  have h := Laid.cons hword hgap (.cons hstring (hblank .tab) (.cons hbreak (hblank .space)
    (.last hnumber)))
  have htext : ("VISIBLE" ++ (" OBTW ?TLDR...\n" ++ ("\":(41):{x}B\"" ++ ("\t" ++
      (" BTW done\r\n" ++ (" " ++ "-7"))))) : Text) =
        "VISIBLE OBTW ?TLDR...\n\":(41):{x}B\"\t BTW done\r\n -7" := by decide
  rw [htext] at h
  exact ⟨h, h.reads_back 0⟩

end LolToolchain
