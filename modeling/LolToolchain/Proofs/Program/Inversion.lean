import LolToolchain.Proofs.Program.Lines
import LolToolchain.Proofs.Token.Items
import LolToolchain.Text.CommonNames

/-!
Parsing inverts rendering: a program is read back from its canonical text, and what is read from any
text is a program that has such a text.
-/
namespace LolToolchain

namespace Parser

variable {spell : Numbar → Text × Text} {fuel : Nat} {w : Window} {ls : List Lexeme}

private theorem gives_digits {t : Text} (hw : w.Shows (.number t :: ls)) (hls : ls ≠ []) :
    Gives digits w (· = t) ls := by
  have hlexeme : w.current.lexeme = .number t := Lexeme.eq_of_unspanned hw.current (by rintro _ _ ⟨⟩)
  refine Gives.peeked rfl ((Gives.expect hw rfl hls).bind fun _ _ _ hw => .pure ?_ hw)
  rw [hlexeme]
  rfl

private theorem gives_closed (hw : w.Shows [.endOfInput]) :
    Gives program.closed w (fun _ => True) [.endOfInput] :=
  Gives.seen hw.kind (.pure trivial hw)

private theorem gives_program {p : Program} (hp : p.Meets (.rendered spell))
    (hw : w.Shows (p.lexemes spell ++ [Lexeme.endOfInput]))
    (hfuel : (p.lexemes spell).length ≤ fuel) :
    Gives (program fuel) w (fun q => q.unspanned = p.unspanned) [.endOfInput] := by
  obtain ⟨-, hbody, major, minor, hmajor, -, hversion⟩ := hp
  rw [Program.lexemes, hversion, Text.versionParts_append hmajor] at hw
  simp only [List.append_assoc, List.cons_append, List.nil_append] at hw
  simp only [Program.lexemes, List.length_append, List.length_cons] at hfuel
  have hclose : Closes [.KTHXBYE] (Keyword.lexeme .KTHXBYE) [.lineBreak, .endOfInput] :=
    .of_word (by decide) (by decide) _
  refine (Gives.skipBreaks (.inl hw) (by rintro ⟨⟩)).bind fun _ _ _ hw => Gives.peeked rfl ?_
  refine (Gives.expectWord hw (by simp)).bind fun _ _ _ hw => ?_
  refine (gives_digits hw (by simp)).bind fun major' _ hmajor' hw => ?_
  refine (Gives.expect hw rfl (by simp)).bind fun _ _ _ hw => ?_
  refine (gives_digits hw (by simp)).bind fun minor' _ hminor' hw => ?_
  refine (gives_break hw hbody hclose.kind_ne).bind fun _ _ _ hw => ?_
  refine (gives_blockOf (gives_stmts (readsBack_expr spell fuel) (by omega) (.inl hw) hclose
    (by decide) hbody (by omega))).bind fun body _ hbody' hw => ?_
  refine (Gives.expectWord hw (by simp)).bind fun _ _ _ hw => Gives.peeked rfl ?_
  refine (Gives.skipBreaks (.inr hw) (by rintro ⟨⟩)).bind fun _ _ _ hw => ?_
  refine (gives_closed hw).bind fun _ _ _ hw => .pure ?_ hw
  rw [Program.unspanned, Program.unspanned, hbody', hmajor', hminor', hversion]

end Parser

private theorem Program.ofItems_eq_ok {eof : Token} {items : List (Except Diagnostic Token)}
    {w w' : Window} {p : Program} (hw : Window.start? eof items = .ok w)
    (hp : Parser.program (items.length + 1) w = .ok (p, w')) : ofItems eof items = .ok p := by
  rw [ofItems, hw]
  change (Parser.program (items.length + 1) w >>= fun r => pure r.1) = _
  rw [hp]
  rfl

/-- A program with a canonical text is read back from it. -/
theorem Program.exists_parse_render [CharNames] {spell : Numbar → Text × Text} {p : Program}
    (hp : p.Meets (.rendered spell)) (file : Int) :
    ∃ q, parse file (p.render spell) = .ok q ∧ q.unspanned = p.unspanned := by
  obtain ⟨ts, hts, hitems⟩ := Token.items_joined file hp.writable
  let eof : Token := ⟨.endOfInput, ⟨(p.render spell).length, (p.render spell).length, file⟩⟩
  have hitems : Token.items file (p.render spell) = (ts ++ [eof]).map .ok := hitems
  obtain ⟨w, hstart, hw⟩ := Window.exists_start eof (List.append_ne_nil_of_right_ne_nil ts
    (List.cons_ne_nil eof []))
  rw [← hitems] at hstart
  rw [List.map_append, hts] at hw
  have hfuel : (p.lexemes spell).length ≤ (Token.items file (p.render spell)).length + 1 := by
    rw [hitems, List.length_map, List.length_append, ← hts, List.length_map]
    omega
  obtain ⟨q, w', hrun, hq, -⟩ := Parser.gives_program hp hw hfuel
  exact ⟨q, ofItems_eq_ok hstart hrun, hq⟩

/-- A choice of digits for every number that digits can spell. -/
def Numbar.IsSpelling (spell : Numbar → Text × Text) : Prop :=
  ∀ (x : Numbar) (whole fraction : Text),
    x.SpelledBy whole fraction → x.SpelledBy (spell x).1 (spell x).2

theorem Numbar.exists_isSpelling : ∃ spell, IsSpelling spell := by
  classical
  refine ⟨fun x => if h : ∃ digits : Text × Text, x.SpelledBy digits.1 digits.2 then h.choose
    else ([], []), fun x whole fraction hx => ?_⟩
  have hexists : ∃ digits : Text × Text, x.SpelledBy digits.1 digits.2 := ⟨(whole, fraction), hx⟩
  simp only [dif_pos hexists]
  exact hexists.choose_spec

theorem Criteria.source_implies_rendered {spell : Numbar → Text × Text}
    (hspell : Numbar.IsSpelling spell) (file : Int) (size : Nat) :
    (source file size).Implies (rendered spell) where
  literal v h := by
    cases v with
    | numbar x =>
      obtain ⟨whole, fraction, hx⟩ := h
      exact hspell x whole fraction hx
    | yarn t => exact h.1
    | interp t =>
      cases t with
      | none => exact h
      | some t => exact ⟨h.1.1, h.2⟩
    | _ => exact h
  span _ _ := trivial
  name _ h := h
  spliced _ h := h
  operator _ h := h

namespace Criteria

variable (spell : Numbar → Text × Text)

theorem rendered_followsFrom :
    (rendered spell).FollowsFrom (shaped fun t => Lexer.isName t = true) (worded spell) where
  literal v hshaped hhas := by
    cases v with
    | interp t =>
      cases t with
      | none => exact hhas
      | some t => exact ⟨hhas, hshaped⟩
    | _ => exact hhas
  span _ _ _ := trivial
  name _ h _ := h
  spliced _ h _ := h
  operator _ _ h := h

private theorem rendered_implies_shaped :
    (rendered spell).Implies (shaped fun t => Lexer.isName t = true) where
  literal v h := by
    cases v with
    | interp t =>
      cases t with
      | none => trivial
      | some t => exact h.2
    | _ => trivial
  span _ _ := trivial
  name _ h := h
  spliced _ h := h
  operator _ _ := trivial

private theorem rendered_implies_worded : (rendered spell).Implies (worded spell) where
  literal v h := by
    cases v with
    | interp t =>
      cases t with
      | none => exact h
      | some t => exact h.1
    | _ => exact h
  span _ _ := trivial
  name _ _ := trivial
  spliced _ _ := trivial
  operator _ h := h

private theorem shaped_implies {P Q : Text → Prop} (h : ∀ t, P t → Q t) : (shaped P).Implies (shaped Q) :=
  ⟨fun _ h => h, fun _ h => h, fun _ h => h, h, fun _ h => h⟩

private theorem shaped_followsFrom (P Q : Text → Prop) :
    (shaped Q).FollowsFrom (shaped P) (splicing Q) :=
  ⟨fun _ h _ => h, fun _ h _ => h, fun _ h _ => h, fun _ _ h => h, fun _ h _ => h⟩

end Criteria

private theorem Program.WellFormed.shaped {p : Program} (h : p.WellFormed) : p.Shaped := by
  refine Stmt.MeetsAll.mono (Criteria.shaped_implies fun t ht => ?_) h
  rcases ht with hname | rfl
  · exact hname.name
  · decide +kernel

/-- Parsing inverts rendering. A well-formed program that can be written is read back from its
canonical text up to spans, and it need not matter which words its strings name. What is read from any
text can be written, and it is well formed but for these words, so it is if they are variables. -/
theorem Program.parse_inverts_render [CharNames] :
    (∀ p : Program, p.WellFormed → p.Shaped) ∧
    (∀ (spell : Numbar → Text × Text) (p : Program) (file : Int), p.Shaped → p.HasText spell →
      ∃ q, parse file (p.render spell) = .ok q ∧ q.unspanned = p.unspanned) ∧
    ∀ spell : Numbar → Text × Text, Numbar.IsSpelling spell →
      ∀ (file : Int) (text : Text) (p : Program), parse file text = .ok p →
        p.Shaped ∧ p.HasText spell ∧ (p.SplicesVariables → p.WellFormed) := by
  refine ⟨fun _ h => h.shaped, fun spell p file hshaped htext => ?_,
    fun spell hspell file text p hp => ?_⟩
  · have hbody : Stmt.MeetsAll (.rendered spell) p.body.stmts :=
      Stmt.MeetsAll.combine (Criteria.rendered_followsFrom spell) hshaped htext.2.1
    exact exists_parse_render ⟨trivial, hbody, htext.2.2⟩ file
  · have hmeets : p.Meets (.rendered spell) :=
      (meets_of_parse hp).mono (Criteria.source_implies_rendered hspell file text.length)
    have hshaped : p.Shaped := hmeets.2.1.mono (Criteria.rendered_implies_shaped spell)
    exact ⟨hshaped, hmeets.mono (Criteria.rendered_implies_worded spell), fun hvariables =>
      Stmt.MeetsAll.combine (Criteria.shaped_followsFrom _ _) hshaped hvariables⟩

/-- A program with a fraction, a string with a variable in it, and a loop. -/
def Program.counting : Program :=
  let x : Ident := ⟨"x", .zero⟩
  let label : Ident := ⟨"up", .zero⟩
  ⟨.zero, "1.2", .mk .zero [
    .declare .zero x (.value (.float .zero ⟨0x3FF8000000000000⟩)),
    .loop .zero label label
      (some ⟨.up, x, .untilTrue (.binary .zero .equal (.var .zero x) (.int .zero (-7)))⟩)
      (.mk .zero [.print .zero [.interp .zero "x: " [⟨3, x⟩], .it .zero] false])]⟩

private theorem Program.wellFormed_counting : counting.WellFormed := by
  have hx : Ident.Meets (.shaped Text.IsVariable) ⟨"x", .zero⟩ :=
    ⟨trivial, by decide +kernel, by decide, by decide, by decide⟩
  have hlabel : Ident.Meets (.shaped Text.IsVariable) ⟨"up", .zero⟩ :=
    ⟨trivial, by decide +kernel, by decide, by decide, by decide⟩
  have hupdate : LoopUpdate.Meets (.shaped Text.IsVariable) ⟨.up, ⟨"x", .zero⟩,
      .untilTrue (.binary .zero .equal (.var .zero ⟨"x", .zero⟩) (.int .zero (-7)))⟩ :=
    ⟨trivial, hx, trivial, ⟨⟨trivial, hx⟩, trivial, trivial⟩, trivial⟩
  have hstring : Expr.Meets (.shaped Text.IsVariable) (.interp .zero "x: " [⟨3, ⟨"x", .zero⟩⟩]) := by
    refine ⟨trivial, ⟨by decide, nofun, ?_⟩, ?_⟩
    · exact List.forall_mem_singleton.2 ⟨by decide, by decide +kernel⟩
    · exact List.forall_mem_singleton.2 ⟨trivial, .inl hx.2⟩
  refine ⟨⟨trivial, hx, trivial, trivial⟩, ⟨trivial, ?_, ⟨⟨trivial, ⟨hstring, trivial, trivial⟩,
    nofun⟩, trivial⟩, hlabel, rfl⟩, trivial⟩
  rintro u ⟨⟩
  exact hupdate

private theorem Program.hasText_counting : counting.HasText fun _ => ("1", "5") := by
  have hdigit {c : Char} (h : Lexer.isDigit c = true) : Text.IsNumeral (Text.ofChars [c]) :=
    ⟨[], [c], .inl rfl, by simp, List.forall_mem_singleton.2 h, rfl⟩
  have hfloat : Numbar.SpelledBy ⟨0x3FF8000000000000⟩ "1" "5" :=
    ⟨hdigit rfl, hdigit rfl, by decide, by decide +kernel⟩
  have hid (name : Text) : Ident.Meets (.worded fun _ => ("1", "5")) ⟨name, .zero⟩ :=
    ⟨trivial, trivial⟩
  have hupdate : LoopUpdate.Meets (.worded fun _ => ("1", "5")) ⟨.up, ⟨"x", .zero⟩,
      .untilTrue (.binary .zero .equal (.var .zero ⟨"x", .zero⟩) (.int .zero (-7)))⟩ :=
    ⟨trivial, hid _, trivial, ⟨⟨trivial, hid _⟩, trivial, trivial⟩, trivial⟩
  have hutf8 : Text.isUtf8 "x: " = true := by decide +kernel
  have hstring : Expr.Meets (.worded fun _ => ("1", "5")) (.interp .zero "x: " [⟨3, ⟨"x", .zero⟩⟩]) :=
    ⟨trivial, hutf8, List.forall_mem_singleton.2 ⟨trivial, trivial⟩⟩
  refine ⟨trivial, ⟨⟨trivial, hid _, trivial, hfloat⟩, ⟨trivial, ?_, ⟨⟨trivial, ⟨hstring, trivial,
    trivial⟩, nofun⟩, trivial⟩, hid _, rfl⟩, trivial⟩, "1", "2", hdigit rfl, hdigit rfl, rfl⟩
  rintro u ⟨⟩
  exact hupdate

attribute [local instance] CharNames.common

/-- The text `HAI 1.2 … KTHXBYE` of the program is read back, and what is read can be written. -/
theorem Program.parse_inverts_render_counting :
    counting.WellFormed ∧ counting.HasText (fun _ => ("1", "5")) ∧
    ∃ spell q, Numbar.IsSpelling spell ∧
      parse 0 (counting.render fun _ => ("1", "5")) = .ok q ∧ q.unspanned = counting.unspanned ∧
      q.Shaped ∧ q.HasText spell := by
  have hshaped := parse_inverts_render.1 counting wellFormed_counting
  obtain ⟨q, hq, hspans⟩ := parse_inverts_render.2.1 _ counting 0 hshaped hasText_counting
  obtain ⟨spell, hspell⟩ := Numbar.exists_isSpelling
  obtain ⟨hread, htext, -⟩ := parse_inverts_render.2.2 spell hspell 0 _ q hq
  exact ⟨wellFormed_counting, hasText_counting, spell, q, hspell, hq, hspans, hread, htext⟩

/-- Whether a program prints a string with one variable in it, and does nothing else. -/
def Program.prints (name : Text) (p : Program) : Bool :=
  match p.body.stmts with
  | [.print _ [.interp _ _ [x]] _] => x.name.name == name
  | _ => false

/-- A reserved word may be named in a string: it is read, though it names no variable. -/
theorem Program.parse_reserved_splice :
    ∃ p, parse 0 "HAI 1.2\nVISIBLE \":\x7bWIN\x7d\"\nKTHXBYE\n" = .ok p ∧ ¬ p.WellFormed := by
  obtain ⟨p, hp, hgood⟩ : ∃ p, parse 0 "HAI 1.2\nVISIBLE \":\x7bWIN\x7d\"\nKTHXBYE\n" = .ok p ∧
      p.prints "WIN" = true := exists_parse _ (by decide +kernel)
  refine ⟨p, hp, fun hbody => ?_⟩
  rw [Program.WellFormed] at hbody
  unfold Program.prints at hgood
  split at hgood
  · rename_i x _ hstmts
    rw [hstmts] at hbody
    have hname : x.name.name = "WIN" := beq_iff_eq.1 hgood
    have hspliced : x.name.name.IsVariable := (hbody.1.2.1.1.2.2 x List.mem_cons_self).2
    rw [hname] at hspliced
    rcases hspliced with hspliced | hspliced
    · exact absurd hspliced.free (by decide)
    · exact absurd hspliced (by decide)
  · cases hgood

end LolToolchain
