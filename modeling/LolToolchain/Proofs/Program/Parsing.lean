import LolToolchain.Program.Parser
import LolToolchain.Proofs.Numbar.Basic
import LolToolchain.Proofs.Program.Criteria
import LolToolchain.Proofs.Token.Validity

/-!
What every program tree is like that a source text is read as: its spans lie in the source, and its
literals are ones that can be written. Each parser is shown to keep the tokens in view valid and to
yield a tree of that kind, or to stop with a diagnostic of the source, provided that the parsers it
is made of do.
-/
namespace LolToolchain

theorem Span.Within.cover {file : Int} {size : Nat} {s t : Span} (hs : s.Within file size)
    (ht : t.Within file size) : (s.cover t).Within file size := by
  have h₁ := hs.start
  have h₂ := ht.start
  have h₃ := hs.ordered
  have h₄ := hs.stop
  have h₅ := ht.stop
  exact ⟨hs.file, by dsimp only [Span.cover]; omega, by dsimp only [Span.cover]; omega,
    by dsimp only [Span.cover]; omega⟩

/-- A value that a literal in a source of `size` bytes can stand for. -/
def Value.Written (size : Nat) : Value → Prop
  | .numbar x => ∃ whole fraction, x.SpelledBy whole fraction
  | .yarn t => t.Spelled size
  | .interp (some t) =>
    t.text.Spelled size ∧ t.misplaced? = none ∧ t.offsets ≠ [] ∧
      ∀ off ∈ t.offsets, t.text.IsBoundary off.toNat
  | .interp none | .bukkit _ | .unknown _ => False
  | .noob | .troof _ | .numbr _ | .funkshon _ => True

/-- Whether an operator has a form in source texts; the orderings have none. -/
def BinaryOp.IsWritten : BinaryOp → Prop
  | .gt | .lt | .ge | .le => False
  | _ => True

/-- What trees read from a source of `size` bytes meet. -/
def Criteria.source (file : Int) (size : Nat) : Criteria where
  literal := Value.Written size
  span := Span.Within file size
  name := Text.IsIdentifier
  spliced t := Lexer.isName t = true
  operator := BinaryOp.IsWritten

variable {file : Int} {size : Nat}

/-- Items of a source: valid tokens, and faults that point into it. -/
structure Token.ValidItems (file : Int) (size : Nat) (items : List (Except Diagnostic Token)) :
    Prop where
  tokens : ∀ t, .ok t ∈ items → t.Valid file size
  faults : ∀ d, .error d ∈ items → d.Located file size

theorem Token.ValidItems.tail {item : Except Diagnostic Token}
    {items : List (Except Diagnostic Token)} (h : ValidItems file size (item :: items)) :
    ValidItems file size items :=
  ⟨fun t ht => h.tokens t (List.mem_cons_of_mem _ ht),
    fun d hd => h.faults d (List.mem_cons_of_mem _ hd)⟩

private theorem Token.validItems_nil : ValidItems file size [] :=
  ⟨nofun, nofun⟩

/-- The tokens in view are valid. -/
structure Window.Valid (file : Int) (size : Nat) (w : Window) : Prop where
  current : w.current.Valid file size
  ahead : Token.ValidItems file size w.ahead
  prevEnd : w.prevEnd ≤ size

namespace Window

open Token (ValidItems)
open Diagnostic (Ends)

theorem valid_show? {t : Token} {ahead : List (Except Diagnostic Token)} {prevEnd : Int}
    (ht : t.Valid file size) (hahead : ValidItems file size ahead) (hprev : prevEnd ≤ size) :
    Ends (Diagnostic.Located file size) (show? t ahead prevEnd) fun w => w.Valid file size := by
  cases ahead with
  | nil => exact ⟨ht, hahead, hprev⟩
  | cons item rest =>
    cases item with
    | error d => exact hahead.faults d List.mem_cons_self
    | ok t' => exact ⟨ht, hahead, hprev⟩

theorem valid_advance {w : Window} (hw : w.Valid file size) :
    Ends (Diagnostic.Located file size) w.advance fun w => w.Valid file size := by
  obtain ⟨t, ahead, prevEnd⟩ := w
  have hstop := hw.current.span.stop
  cases ahead with
  | nil => exact ⟨hw.current, hw.ahead, hstop⟩
  | cons item rest =>
    cases item with
    | error d => exact hw.ahead.faults d List.mem_cons_self
    | ok t' => exact valid_show? (hw.ahead.tokens t' List.mem_cons_self) hw.ahead.tail hstop

theorem valid_skipBreaks {t : Token} {ahead : List (Except Diagnostic Token)} {prevEnd : Int}
    (ht : t.Valid file size) (hahead : ValidItems file size ahead) (hprev : prevEnd ≤ size) :
    Ends (Diagnostic.Located file size) (skipBreaks t ahead prevEnd) fun w => w.Valid file size := by
  induction ahead generalizing t prevEnd with
  | nil =>
    rw [skipBreaks.eq_def]
    split
    · exact ⟨ht, hahead, hprev⟩
    · exact valid_show? ht hahead hprev
  | cons item rest ih =>
    rw [skipBreaks.eq_def]
    split
    · cases item with
      | error d => exact hahead.faults d List.mem_cons_self
      | ok t' => exact ih (hahead.tokens t' List.mem_cons_self) hahead.tail ht.span.stop
    · exact valid_show? ht hahead hprev

theorem valid_start? {eof : Token} {items : List (Except Diagnostic Token)}
    (heof : eof.Valid file size) (hitems : ValidItems file size items) :
    Ends (Diagnostic.Located file size) (start? eof items) fun w => w.Valid file size := by
  have hzero : (0 : Int) ≤ size := Int.natCast_nonneg _
  cases items with
  | nil => exact ⟨heof, Token.validItems_nil, hzero⟩
  | cons item rest =>
    cases item with
    | error d => exact hitems.faults d List.mem_cons_self
    | ok t => exact valid_show? (hitems.tokens t List.mem_cons_self) hitems.tail hzero

end Window

namespace Parser

/-- A parser that keeps the tokens in view valid and yields only trees with a property; if it stops,
then with a diagnostic of the source. -/
def Yields {α : Type} (file : Int) (size : Nat) (x : Parser α) (Q : α → Prop) : Prop :=
  ∀ w : Window, w.Valid file size →
    Diagnostic.Ends (Diagnostic.Located file size) (x w) fun r => r.2.Valid file size ∧ Q r.1

namespace Yields

variable {α β : Type} {x : Parser α} {f : α → Parser β} {Q : α → Prop} {R : β → Prop}

theorem pure {a : α} (h : Q a) : Yields file size (pure a) Q :=
  fun _ hw => ⟨hw, h⟩

theorem bind (hx : Yields file size x Q) (hf : ∀ a, Q a → Yields file size (f a) R) :
    Yields file size (x >>= f) R := by
  intro w hw
  exact (hx w hw).bind fun r hr => hf r.1 hr.2 r.2 hr.1

theorem map {g : α → β} (hx : Yields file size x Q) (hg : ∀ a, Q a → R (g a)) :
    Yields file size (g <$> x) R :=
  hx.bind fun a ha => .pure (hg a ha)

theorem mono {P : α → Prop} (hx : Yields file size x Q) (h : ∀ a, Q a → P a) :
    Yields file size x P := by
  intro w hw
  exact (hx w hw).mono fun r hr => ⟨hr.1, h r.1 hr.2⟩

theorem ite {p : Prop} [Decidable p] {y : Parser α} (hx : Yields file size x Q)
    (hy : Yields file size y Q) : Yields file size (if p then x else y) Q := by
  split
  · exact hx
  · exact hy

theorem throw {d : Diagnostic} (h : d.Points (Span.Within file size)) :
    Yields file size (throw d : Parser α) Q :=
  fun _ _ => .inl h

theorem get : Yields file size get fun w => w.Valid file size :=
  fun _ hw => ⟨hw, hw⟩

theorem current : Yields file size current fun t => t.Valid file size :=
  get.bind fun _ hw => .pure hw.current

theorem kind : Yields file size kind fun _ => True :=
  current.bind fun _ _ => .pure trivial

theorem sees {k : TokenKind} : Yields file size (sees k) fun _ => True :=
  kind.bind fun _ _ => .pure trivial

theorem seesWord {k : Keyword} : Yields file size (seesWord k) fun _ => True :=
  sees

/-- A step of the window. -/
theorem moved {move : Window → Except Diagnostic Window}
    (h : ∀ w : Window, w.Valid file size →
      Diagnostic.Ends (Diagnostic.Located file size) (move w) fun w => w.Valid file size) :
    Yields file size (fun w => do return ((), ← move w)) fun _ => True := by
  intro w hw
  exact (h w hw).bind fun v hv => ⟨hv, trivial⟩

theorem advance : Yields file size advance fun _ => True :=
  moved fun _ hw => Window.valid_advance hw

theorem skipBreaks : Yields file size skipBreaks fun _ => True :=
  moved fun _ hw => Window.valid_skipBreaks hw.current hw.ahead hw.prevEnd

theorem fail {fault : ParseFault} {span : Span} (h : span.Within file size) :
    Yields file size (fail fault span) Q :=
  throw (Diagnostic.points_new h)

theorem expected {what : Text} : Yields file size (expected what) Q :=
  current.bind fun _ ht => fail ht.span

theorem exhausted : Yields file size exhausted Q :=
  current.bind fun _ ht => fail ht.span

theorem expect {k : TokenKind} : Yields file size (expect k) fun _ => True :=
  sees.bind fun _ _ => ite advance expected

theorem expectWord {k : Keyword} : Yields file size (expectWord k) fun _ => True :=
  expect

theorem expectWords {ks : List Keyword} : Yields file size (expectWords ks) fun _ => True := by
  induction ks with
  | nil => exact .pure trivial
  | cons k ks ih => exact expectWord.bind fun _ _ => ih

theorem accept {k : Keyword} : Yields file size (accept k) fun _ => True :=
  seesWord.bind fun _ _ => ite (advance.bind fun _ _ => .pure trivial) (.pure trivial)

theorem expectBreak : Yields file size expectBreak fun _ => True :=
  expect.bind fun _ _ => skipBreaks

/-- The span of a node that starts in the source lies in the source. -/
theorem spanFrom {start : Span} (h : start.Within file size) :
    Yields file size (spanFrom start) fun s => s.Within file size := by
  refine get.bind fun w hw => .pure ?_
  have hprev := hw.prevEnd
  refine ⟨h.file, h.start, ?_, ?_⟩
  · dsimp only
    split
    · exact h.ordered
    · omega
  · dsimp only
    split
    · exact h.stop
    · exact hprev

theorem ident : Yields file size ident (Ident.Meets (.source file size)) := by
  refine current.bind fun t ht => ?_
  have hlexeme := ht.lexeme
  split
  · rename_i name heq
    rw [heq] at hlexeme
    exact advance.bind fun _ _ => .pure ⟨ht.span, hlexeme.1⟩
  · exact expected

theorem target : Yields file size target (Ident.MeetsTarget (.source file size)) :=
  current.bind fun _ ht => accept.bind fun _ _ =>
    ite (.pure ⟨ht.span, .inr rfl⟩) (ident.mono fun _ hid => ⟨hid.1, .inl hid.2⟩)

theorem typeName : Yields file size typeName fun _ => True := by
  refine kind.bind fun k _ => ?_
  split
  · split
    · exact advance.bind fun _ _ => .pure trivial
    · exact expected
  · exact expected

theorem number {whole : Text} {span : Span} (hwhole : whole.IsNumeral)
    (hspan : span.Within file size) :
    Yields file size (number whole span) (Expr.Meets (.source file size)) := by
  refine advance.bind fun _ _ => sees.bind fun _ _ => ite ?_ ?_
  · refine advance.bind fun _ _ => current.bind fun t ht => ?_
    have hlexeme := ht.lexeme
    split
    · rename_i fraction heq
      rw [heq] at hlexeme
      split
      · exact expected
      · rename_i hsign
        refine advance.bind fun _ _ => ?_
        split
        · rename_i x hx
          exact .pure ⟨hspan.cover ht.span, whole, fraction, hwhole, hlexeme,
            fun hhead => hsign (beq_iff_eq.2 hhead), hx⟩
        · exact fail (hspan.cover ht.span)
    · exact expected
  · split
    · exact .pure ⟨hspan, trivial⟩
    · exact fail hspan

variable {sub : Parser Expr} {start : Span}

theorem operands {op : BinaryOp} (hop : op.IsWritten)
    (hsub : Yields file size sub (Expr.Meets (.source file size)))
    (hstart : start.Within file size) :
    Yields file size (operands sub start op) (Expr.Meets (.source file size)) :=
  hsub.bind fun _ hleft => expectWord.bind fun _ _ => hsub.bind fun _ hright =>
    (spanFrom hstart).bind fun _ hs => .pure ⟨hs, ⟨hleft, hright⟩, hop⟩

theorem looseOperands {op : BinaryOp} (hop : op.IsWritten)
    (hsub : Yields file size sub (Expr.Meets (.source file size)))
    (hstart : start.Within file size) :
    Yields file size (looseOperands sub start op) (Expr.Meets (.source file size)) :=
  hsub.bind fun _ hleft => accept.bind fun _ _ => hsub.bind fun _ hright =>
    (spanFrom hstart).bind fun _ hs => .pure ⟨hs, ⟨hleft, hright⟩, hop⟩

/-- Parts of a tree, at least one. -/
def Some (file : Int) (size : Nat) (xs : List Expr) : Prop :=
  Expr.MeetsAll (.source file size) xs ∧ xs ≠ []

private theorem untilMkay (hsub : Yields file size sub (Expr.Meets (.source file size))) (fuel : Nat) :
    Yields file size (untilMkay sub fuel) (Expr.MeetsAll (.source file size)) := by
  induction fuel with
  | zero => exact exhausted
  | succ fuel ih =>
    refine accept.bind fun _ _ => ite (.pure trivial) ?_
    refine sees.bind fun _ _ => sees.bind fun _ _ => ite expected ?_
    exact hsub.bind fun x hx => accept.bind fun _ _ => ih.bind fun xs hxs => .pure ⟨hx, hxs⟩

private theorem concatParts (hsub : Yields file size sub (Expr.Meets (.source file size))) (fuel : Nat) :
    Yields file size (concatParts sub fuel) (Some file size) := by
  induction fuel with
  | zero => exact exhausted
  | succ fuel ih =>
    refine hsub.bind fun x hx => ?_
    have hmore : Yields file size (do return x :: (← Parser.concatParts sub fuel))
        (Some file size) := ih.bind fun xs hxs => .pure ⟨⟨hx, hxs.1⟩, List.cons_ne_nil _ _⟩
    have hlast : Yields file size (do return [x]) (Some file size) :=
      .pure ⟨⟨hx, trivial⟩, List.cons_ne_nil _ _⟩
    refine accept.bind fun _ _ => ite hmore (accept.bind fun _ _ => ite hlast ?_)
    exact sees.bind fun _ _ => sees.bind fun _ _ => sees.bind fun _ _ => ite hlast hmore

private theorem callArgs (hsub : Yields file size sub (Expr.Meets (.source file size))) (fuel : Nat) :
    Yields file size (callArgs sub fuel) (Expr.MeetsAll (.source file size)) := by
  induction fuel with
  | zero => exact exhausted
  | succ fuel ih =>
    refine expectWord.bind fun _ _ => hsub.bind fun x hx => accept.bind fun _ _ => ite ?_ ?_
    · exact ih.bind fun xs hxs => .pure ⟨hx, hxs⟩
    · exact .pure ⟨hx, trivial⟩

private theorem listElems (hsub : Yields file size sub (Expr.Meets (.source file size))) (fuel : Nat) :
    Yields file size (listElems sub fuel) (Expr.MeetsAll (.source file size)) := by
  induction fuel with
  | zero => exact exhausted
  | succ fuel ih =>
    refine seesWord.bind fun _ _ => ite (.pure trivial) ?_
    refine hsub.bind fun x hx => accept.bind fun _ _ => ite ?_ ?_
    · exact ih.bind fun xs hxs => .pure ⟨hx, hxs⟩
    · exact .pure ⟨hx, trivial⟩

private theorem isWritten_of_binaryOfWord? {k : Keyword} {op : BinaryOp}
    (h : binaryOfWord? k = Option.some op) : op.IsWritten := by
  cases k with
  | SUM | DIFF | PRODUKT | QUOSHUNT | MOD | BIGGR | SMALLR | EITHER | WON =>
    cases h
    trivial
  | _ => cases h

private theorem wordExpr (hsub : Yields file size sub (Expr.Meets (.source file size))) {fuel : Nat}
    {t : Token} (ht : t.Valid file size) {k : Keyword} :
    Yields file size (wordExpr sub fuel t k) (Expr.Meets (.source file size)) := by
  have hspan := spanFrom ht.span
  unfold Parser.wordExpr
  split
  case h_1 | h_2 | h_3 | h_4 => exact advance.bind fun _ _ => .pure ht.span
  case h_5 =>
    refine get.bind fun _ _ => ite ?_ ?_
    · exact advance.bind fun _ _ => advance.bind fun _ _ => looseOperands trivial hsub ht.span
    · exact advance.bind fun _ _ => expectWord.bind fun _ _ => operands trivial hsub ht.span
  case h_6 => exact advance.bind fun _ _ => looseOperands trivial hsub ht.span
  case h_7 =>
    exact advance.bind fun _ _ => hsub.bind fun x hx => hspan.bind fun s hs => .pure ⟨hs, hx⟩
  case h_8 =>
    exact advance.bind fun _ _ => expectWord.bind fun _ _ => hsub.bind fun x hx =>
      hspan.bind fun s hs => .pure ⟨hs, hx⟩
  case h_9 | h_10 =>
    exact advance.bind fun _ _ => expectWord.bind fun _ _ => (untilMkay hsub fuel).bind
      fun xs hxs => hspan.bind fun s hs => .pure ⟨hs, hxs⟩
  case h_11 =>
    exact advance.bind fun _ _ => (concatParts hsub fuel).bind fun xs hxs =>
      hspan.bind fun s hs => .pure ⟨hs, hxs⟩
  case h_12 =>
    exact advance.bind fun _ _ => hsub.bind fun x hx => accept.bind fun _ _ =>
      typeName.bind fun _ _ => hspan.bind fun s hs => .pure ⟨hs, hx⟩
  case h_13 =>
    refine expectWords.bind fun _ _ => ident.bind fun id hid => ?_
    have hrest (xs : List Expr) (hxs : Expr.MeetsAll (.source file size) xs) :
        Yields file size (do
          Parser.expectWord .MKAY
          return .call (← Parser.spanFrom t.span) id xs) (Expr.Meets (.source file size)) :=
      expectWord.bind fun _ _ => hspan.bind fun s hs => .pure ⟨hs, hid, hxs⟩
    exact seesWord.bind fun _ _ => ite ((callArgs hsub fuel).bind hrest) (hrest [] trivial)
  case h_14 =>
    have hrest {xs : List Expr} (hxs : Expr.MeetsAll (.source file size) xs) :
        Yields file size (do return .list (← Parser.spanFrom t.span) xs)
          (Expr.Meets (.source file size)) := hspan.bind fun s hs => .pure ⟨hs, hxs⟩
    refine advance.bind fun _ _ => accept.bind fun _ _ => ite ?_ (hrest trivial)
    exact (listElems hsub fuel).bind fun xs hxs => expectWord.bind fun _ _ => hrest hxs
  case h_15 =>
    refine advance.bind fun _ _ => accept.bind fun _ _ => ite ?_ ?_
    · exact expectWord.bind fun _ _ => hsub.bind fun x hx =>
        hspan.bind fun s hs => .pure ⟨hs, hx⟩
    · refine accept.bind fun _ _ => ite ?_ ?_
      · exact expectWord.bind fun _ _ => hsub.bind fun x hx =>
          hspan.bind fun s hs => .pure ⟨hs, hx⟩
      · exact hsub.bind fun i hi => expectWord.bind fun _ _ => hsub.bind fun x hx =>
          hspan.bind fun s hs => .pure ⟨hs, hi, hx⟩
  case h_16 =>
    split
    · rename_i op hop
      exact advance.bind fun _ _ => expectWord.bind fun _ _ =>
        operands (isWritten_of_binaryOfWord? hop) hsub ht.span
    · exact expected

/-- The template of a valid string with variables can be written. -/
private theorem written_template {text : Text} {insertions : List Insertion} (hne : insertions ≠ [])
    (h : (Lexeme.string text insertions).Valid file size) :
    Value.Written size
      (.interp (Option.some (Splice.template text (insertions.map spliceOf)))) := by
  obtain ⟨hspelled, hordered, hinserted⟩ := h
  have hoffsets : (Splice.template text (insertions.map spliceOf)).offsets =
      Insertion.offsets insertions := by
    rw [Splice.template, List.map_map]
    rfl
  refine ⟨hspelled, ?_, ?_, ?_⟩
  · rw [Template.misplaced?, hoffsets]
    exact hordered
  · rw [hoffsets]
    exact fun hnil => hne (List.map_eq_nil_iff.1 hnil)
  · rw [hoffsets]
    intro off hoff
    obtain ⟨i, hi, rfl⟩ := List.mem_map.1 hoff
    exact (hinserted i hi).place

private theorem exprForm (hsub : Yields file size sub (Expr.Meets (.source file size))) {fuel : Nat} :
    Yields file size (exprForm sub fuel) (Expr.Meets (.source file size)) := by
  refine current.bind fun t ht => ?_
  have hlexeme := ht.lexeme
  split
  · rename_i digits heq
    rw [heq] at hlexeme
    exact number hlexeme ht.span
  · rename_i text heq
    rw [heq] at hlexeme
    exact advance.bind fun _ _ => .pure ⟨ht.span, hlexeme.1⟩
  · rename_i text insertions hne heq
    rw [heq] at hlexeme
    refine advance.bind fun _ _ => .pure ⟨ht.span, written_template hne hlexeme, fun x hx => ?_⟩
    obtain ⟨i, hi, rfl⟩ := List.mem_map.1 hx
    exact ⟨(hlexeme.2.2 i hi).span, (hlexeme.2.2 i hi).name⟩
  · rename_i name heq
    rw [heq] at hlexeme
    exact advance.bind fun _ _ => .pure ⟨ht.span, ht.span, hlexeme.1⟩
  · exact wordExpr hsub ht
  · exact expected

theorem expr (fuel : Nat) : Yields file size (expr fuel) (Expr.Meets (.source file size)) := by
  induction fuel with
  | zero => exact exhausted
  | succ fuel ih => exact exprForm ih

/-- The statements of a block meet the criteria. -/
def Good (file : Int) (size : Nat) (b : Block) : Prop :=
  Stmt.MeetsAll (.source file size) b.stmts

variable {block : List Keyword → Parser Block} {fuel : Nat}

theorem atEnd {ends : List Keyword} : Yields file size (atEnd ends) fun _ => True :=
  get.bind fun _ _ => .pure trivial

theorem params :
    Yields file size (params fuel) fun ps => ∀ x ∈ ps, x.Meets (.source file size) := by
  induction fuel with
  | zero => exact exhausted
  | succ fuel ih =>
    refine expectWord.bind fun _ _ => ident.bind fun _ hid => accept.bind fun _ _ => ite ?_ ?_
    · exact ih.bind fun _ hps => .pure (List.forall_mem_cons.2 ⟨hid, hps⟩)
    · exact .pure (List.forall_mem_singleton.2 hid)

theorem arms (hsub : Yields file size sub (Expr.Meets (.source file size)))
    (hblock : ∀ ends, Yields file size (block ends) (Good file size)) {word : Keyword}
    {ends : List Keyword} :
    Yields file size (arms sub block word ends fuel) (Arm.MeetsAll (.source file size)) := by
  induction fuel with
  | zero => exact exhausted
  | succ fuel ih =>
    refine accept.bind fun _ _ => ite ?_ (.pure trivial)
    refine hsub.bind fun test htest => expectBreak.bind fun _ _ => (hblock ends).bind fun b hb => ?_
    obtain ⟨s, body⟩ := b
    exact ih.bind fun _ harms => .pure ⟨htest, hb, harms⟩

theorem printArgs (hsub : Yields file size sub (Expr.Meets (.source file size))) :
    Yields file size (printArgs sub fuel) (Some file size) := by
  induction fuel with
  | zero => exact exhausted
  | succ fuel ih =>
    refine hsub.bind fun x hx => ?_
    have hmore : Yields file size (do return x :: (← Parser.printArgs sub fuel))
        (Some file size) := ih.bind fun xs hxs => .pure ⟨⟨hx, hxs.1⟩, List.cons_ne_nil _ _⟩
    have hlast : Yields file size (do return [x]) (Some file size) :=
      .pure ⟨⟨hx, trivial⟩, List.cons_ne_nil _ _⟩
    refine accept.bind fun _ _ => ite hmore ?_
    exact sees.bind fun _ _ => sees.bind fun _ _ => sees.bind fun _ _ => ite hlast hmore

theorem loopUpdate (hsub : Yields file size sub (Expr.Meets (.source file size))) :
    Yields file size (loopUpdate sub) (LoopUpdate.Meets (.source file size)) := by
  refine current.bind fun t ht => ?_
  have hrest (change : LoopChange) (hchange : change.Meets (.source file size)) :
      Yields file size (do
        Parser.expectWord .YR
        let v ← Parser.ident
        if ← Parser.accept .TIL then return ⟨change, v, .untilTrue (← sub)⟩
        else if ← Parser.accept .WILE then return ⟨change, v, .whileTrue (← sub)⟩
        else return ⟨change, v, .forever⟩) (LoopUpdate.Meets (.source file size)) := by
    refine expectWord.bind fun _ _ => ident.bind fun v hv => accept.bind fun _ _ => ite ?_ ?_
    · exact hsub.bind fun x hx => .pure ⟨hchange, hv, hx⟩
    · refine accept.bind fun _ _ => ite ?_ ?_
      · exact hsub.bind fun x hx => .pure ⟨hchange, hv, hx⟩
      · exact .pure ⟨hchange, hv, trivial⟩
  split
  · exact advance.bind fun _ _ => hrest _ trivial
  · exact advance.bind fun _ _ => hrest _ trivial
  · exact ident.bind fun id hid => hrest _ hid
  · exact expected.bind hrest

theorem exprStmt (hsub : Yields file size sub (Expr.Meets (.source file size)))
    (hstart : start.Within file size) :
    Yields file size (exprStmt sub start) (Stmt.Meets (.source file size)) :=
  hsub.bind fun _ hx => (spanFrom hstart).bind fun _ hs => .pure ⟨hs, hx⟩

theorem declaration (hsub : Yields file size sub (Expr.Meets (.source file size)))
    (hstart : start.Within file size) :
    Yields file size (declaration sub start) (Stmt.Meets (.source file size)) := by
  refine expectWords.bind fun _ _ => ident.bind fun id hid => ?_
  have hrest (initial : Initial) (hinitial : initial.Meets (.source file size)) :
      Yields file size (do return .declare (← Parser.spanFrom start) id initial)
        (Stmt.Meets (.source file size)) :=
    (spanFrom hstart).bind fun _ hs => .pure ⟨hs, hid, hinitial⟩
  refine accept.bind fun _ _ => ite (accept.bind fun _ _ => ite ?_ ?_) (hrest .absent trivial)
  · exact (typeName.map fun _ _ => trivial).bind hrest
  · exact (hsub.map (g := Initial.value) (R := Initial.Meets _) fun _ hx => hx).bind hrest

theorem assignment (hsub : Yields file size sub (Expr.Meets (.source file size)))
    (hstart : start.Within file size) :
    Yields file size (assignment sub start) (Stmt.Meets (.source file size)) :=
  target.bind fun _ hid => expectWord.bind fun _ _ => hsub.bind fun _ hx =>
    (spanFrom hstart).bind fun _ hs => .pure ⟨hs, hid, hx⟩

theorem castStmt (hstart : start.Within file size) :
    Yields file size (castStmt start) (Stmt.Meets (.source file size)) :=
  ident.bind fun _ hid => expectWords.bind fun _ _ => typeName.bind fun _ _ =>
    (spanFrom hstart).bind fun _ hs => .pure ⟨hs, hid⟩

theorem loadStmt (hstart : start.Within file size) :
    Yields file size (loadStmt start) (Stmt.Meets (.source file size)) :=
  expectWords.bind fun _ _ => ident.bind fun _ hid => expect.bind fun _ _ =>
    (spanFrom hstart).bind fun _ hs => .pure ⟨hs, hid⟩

theorem definition (hblock : ∀ ends, Yields file size (block ends) (Good file size))
    (hstart : start.Within file size) :
    Yields file size (definition block fuel start) (Stmt.Meets (.source file size)) := by
  refine expectWords.bind fun _ _ => ident.bind fun id hid => ?_
  have hrest (ps : List Ident) (hps : ∀ x ∈ ps, x.Meets (.source file size)) :
      Yields file size (do
      Parser.expectBreak
      let body ← block [.IF]
      Parser.expectWords [.IF, .U, .SAY, .SO]
      return .define (← Parser.spanFrom start) id ps body) (Stmt.Meets (.source file size)) := by
    refine expectBreak.bind fun _ _ => (hblock _).bind fun b hb => ?_
    obtain ⟨s, body⟩ := b
    exact expectWords.bind fun _ _ => (spanFrom hstart).bind fun _ hs =>
      .pure ⟨hs, hid, hb, hps⟩
  exact seesWord.bind fun _ _ => ite (params.bind hrest) (hrest [] nofun)

section Optional

variable {β : Type} {rest : Option Block → Parser β} {R : β → Prop} {x y : Parser Unit}
  {ends : List Keyword} {b : Bool}

theorem someBlock (hblock : ∀ ends, Yields file size (block ends) (Good file size))
    (hrest : ∀ b, Block.MeetsOption (.source file size) b → Yields file size (rest b) R) :
    Yields file size (some <$> block ends >>= rest) R := by
  refine ((hblock ends).map fun b hb => ?_).bind hrest
  obtain ⟨s, body⟩ := b
  exact hb

/-- A block behind a line break, or none. -/
private theorem optional (hx : Yields file size x fun _ => True)
    (hblock : ∀ ends, Yields file size (block ends) (Good file size))
    (hrest : ∀ b, Block.MeetsOption (.source file size) b → Yields file size (rest b) R) :
    Yields file size (if b then x >>= fun _ => some <$> block ends >>= rest else rest none) R :=
  ite (hx.bind fun _ _ => someBlock hblock hrest) (hrest none trivial)

/-- A block behind a word and a line break, or none. -/
private theorem optionalWord (hx : Yields file size x fun _ => True)
    (hy : Yields file size y fun _ => True)
    (hblock : ∀ ends, Yields file size (block ends) (Good file size))
    (hrest : ∀ b, Block.MeetsOption (.source file size) b → Yields file size (rest b) R) :
    Yields file size
      (if b then x >>= fun _ => y >>= fun _ => some <$> block ends >>= rest else rest none) R :=
  ite (hx.bind fun _ _ => hy.bind fun _ _ => someBlock hblock hrest) (hrest none trivial)

end Optional

theorem switchStmt (hsub : Yields file size sub (Expr.Meets (.source file size)))
    (hblock : ∀ ends, Yields file size (block ends) (Good file size))
    (hstart : start.Within file size) :
    Yields file size (switchStmt sub block fuel start) (Stmt.Meets (.source file size)) := by
  refine expectWord.bind fun _ _ => expect.bind fun _ _ => expectBreak.bind fun _ _ => ?_
  refine (arms hsub hblock).bind fun cases hcases => accept.bind fun _ _ => ?_
  refine optional expectBreak hblock fun otherwise hotherwise => ?_
  exact expectWord.bind fun _ _ => (spanFrom hstart).bind fun _ hs => .pure ⟨hs, hcases, hotherwise⟩

theorem branchStmt (hsub : Yields file size sub (Expr.Meets (.source file size)))
    (hblock : ∀ ends, Yields file size (block ends) (Good file size))
    (hstart : start.Within file size) :
    Yields file size (branchStmt sub block fuel start) (Stmt.Meets (.source file size)) := by
  refine expectWords.bind fun _ _ => expect.bind fun _ _ => expectBreak.bind fun _ _ => ?_
  refine accept.bind fun _ _ => optionalWord expectWord expectBreak hblock fun yes hyes => ?_
  refine (arms hsub hblock).bind fun cases hcases => accept.bind fun _ _ => ?_
  refine optionalWord expectWord expectBreak hblock fun no hno => ?_
  exact expectWord.bind fun _ _ => (spanFrom hstart).bind fun _ hs =>
    .pure ⟨hs, hyes, hcases, hno⟩

private theorem loopStmt (hsub : Yields file size sub (Expr.Meets (.source file size)))
    (hblock : ∀ ends, Yields file size (block ends) (Good file size))
    (hstart : start.Within file size) :
    Yields file size (loopStmt sub block start) (Stmt.Meets (.source file size)) := by
  refine expectWords.bind fun _ _ => ident.bind fun label hlabel => sees.bind fun _ _ => ?_
  have hrest (update : Option LoopUpdate)
      (hupdate : ∀ u ∈ update, u.Meets (.source file size)) : Yields file size (do
        Parser.expectBreak
        let body ← block [.IM]
        Parser.expectWords [.IM, .OUTTA, .YR]
        let close ← Parser.ident
        if close.name == label.name then
          return .loop (← Parser.spanFrom start) label close update body
        else
          throwThe Diagnostic (((ParseFault.labelMismatch label.name close.name).toDiagnostic
            close.span).annotate label.span ("loop " ++ label.name ++ " opened here")))
      (Stmt.Meets (.source file size)) := by
    refine expectBreak.bind fun _ _ => (hblock _).bind fun b hb => expectWords.bind fun _ _ => ?_
    obtain ⟨s, body⟩ := b
    refine ident.bind fun close hclose => ?_
    split
    · rename_i heq
      exact (spanFrom hstart).bind fun _ hs => .pure ⟨hs, hupdate, hb, hlabel, eq_of_beq heq⟩
    · exact throw ((Diagnostic.points_new hclose.1).annotate hlabel.1)
  refine ite (hrest none nofun) ?_
  refine ((loopUpdate hsub).map fun u hu => ?_).bind hrest
  intro v hv
  cases hv
  exact hu

private theorem printStmt (hsub : Yields file size sub (Expr.Meets (.source file size)))
    (hstart : start.Within file size) :
    Yields file size (printStmt sub fuel start) (Stmt.Meets (.source file size)) := by
  refine advance.bind fun _ _ => (printArgs hsub).bind fun args hargs => sees.bind fun quiet _ => ?_
  have hrest : Yields file size (do return .print (← Parser.spanFrom start) args (!quiet))
      (Stmt.Meets (.source file size)) := (spanFrom hstart).bind fun _ hs => .pure ⟨hs, hargs⟩
  exact ite (advance.bind fun _ _ => hrest) hrest

private theorem readStmt (hstart : start.Within file size) :
    Yields file size (readStmt start) (Stmt.Meets (.source file size)) :=
  advance.bind fun _ _ => target.bind fun _ hid => (spanFrom hstart).bind fun _ hs =>
    .pure ⟨hs, hid⟩

private theorem putStmt (hsub : Yields file size sub (Expr.Meets (.source file size)))
    (hstart : start.Within file size) :
    Yields file size (putStmt sub start) (Stmt.Meets (.source file size)) := by
  refine advance.bind fun _ _ => hsub.bind fun x hx => expectWords.bind fun _ _ => ?_
  refine ident.bind fun id hid => accept.bind fun _ _ => ite ?_ ?_
  · exact hsub.bind fun i hi => (spanFrom hstart).bind fun _ hs => .pure ⟨hs, hid, hi, hx⟩
  · exact (spanFrom hstart).bind fun _ hs => .pure ⟨hs, hid, hx⟩

private theorem returnStmt (hsub : Yields file size sub (Expr.Meets (.source file size)))
    (hstart : start.Within file size) :
    Yields file size (returnStmt sub start) (Stmt.Meets (.source file size)) :=
  expectWords.bind fun _ _ => hsub.bind fun _ hx => (spanFrom hstart).bind fun _ hs =>
    .pure ⟨hs, hx⟩

private theorem stmtForm (hsub : Yields file size sub (Expr.Meets (.source file size)))
    (hblock : ∀ ends, Yields file size (block ends) (Good file size)) :
    Yields file size (stmtForm sub block fuel) (Stmt.Meets (.source file size)) := by
  refine current.bind fun t ht => get.bind fun _ _ => ?_
  have hexpr : Yields file size (Parser.exprStmt sub t.span) (Stmt.Meets (.source file size)) :=
    exprStmt hsub ht.span
  split
  · exact ite (assignment hsub ht.span) (ite (castStmt ht.span) hexpr)
  · split
    case h_1 => exact ite hexpr (declaration hsub ht.span)
    case h_2 => exact ite (assignment hsub ht.span) hexpr
    case h_3 => exact loadStmt ht.span
    case h_4 => exact definition hblock ht.span
    case h_5 => exact switchStmt hsub hblock ht.span
    case h_6 => exact branchStmt hsub hblock ht.span
    case h_7 => exact advance.bind fun _ _ => .pure ht.span
    case h_8 => exact loopStmt hsub hblock ht.span
    case h_9 => exact returnStmt hsub ht.span
    case h_10 => exact printStmt hsub ht.span
    case h_11 => exact readStmt ht.span
    case h_12 => exact putStmt hsub ht.span
    case h_13 => exact hexpr
  · exact hexpr

theorem blockOf {stmts : Parser (List Stmt)}
    (h : Yields file size stmts (Stmt.MeetsAll (.source file size))) :
    Yields file size (blockOf stmts) (Good file size) :=
  current.bind fun _ _ => h.bind fun _ hss => .pure hss

private theorem stmts (hsub : Yields file size sub (Expr.Meets (.source file size))) (fuel : Nat) :
    ∀ ends, Yields file size (stmts sub fuel ends) (Stmt.MeetsAll (.source file size)) := by
  induction fuel with
  | zero => exact fun _ => exhausted
  | succ fuel ih =>
    intro ends
    refine skipBreaks.bind fun _ _ => atEnd.bind fun _ _ => ite (.pure trivial) ?_
    refine (stmtForm hsub fun inner => blockOf (ih inner)).bind fun s hs => ?_
    refine sees.bind fun _ _ => atEnd.bind fun _ _ => ite ?_ expected
    exact (ih ends).bind fun ss hss => .pure ⟨hs, hss⟩

private theorem digits : Yields file size digits Text.IsNumeral := by
  intro w hw
  change Diagnostic.Ends (Diagnostic.Located file size) (((if w.current.kind == .number then Parser.advance
      else Parser.expected TokenKind.number.name) >>= fun _ =>
    (Pure.pure w.current.lexeme.text : Parser Text)) w) _
  by_cases hkind : (w.current.kind == .number) = true
  · rw [if_pos hkind]
    have hnumeral : w.current.lexeme.text.IsNumeral := by
      have hvalid := hw.current.lexeme
      have hnumber : w.current.lexeme.kind = .number := eq_of_beq hkind
      cases hlexeme : w.current.lexeme with
      | number digits =>
        rw [hlexeme] at hvalid
        exact hvalid
      | string text insertions =>
        rw [hlexeme] at hnumber
        cases insertions <;> cases hnumber
      | _ =>
        rw [hlexeme] at hnumber
        cases hnumber
    exact (advance.bind fun _ _ => .pure hnumeral) w hw
  · rw [if_neg hkind]
    have hfails : Yields file size (Parser.expected TokenKind.number.name : Parser Unit)
        fun _ => False := expected
    exact (hfails.bind fun _ hfalse => hfalse.elim) w hw

private theorem program (fuel : Nat) :
    Yields file size (program fuel) (Program.Meets (.source file size)) := by
  refine skipBreaks.bind fun _ _ => current.bind fun t ht => expectWord.bind fun _ _ => ?_
  refine digits.bind fun major hmajor => expect.bind fun _ _ => digits.bind fun minor hminor => ?_
  refine expectBreak.bind fun _ _ => (blockOf (stmts (expr fuel) fuel _)).bind fun b hb => ?_
  refine expectWord.bind fun _ _ => (spanFrom ht.span).bind fun s hs => skipBreaks.bind fun _ _ => ?_
  have hclosed : Yields file size program.closed fun _ => True :=
    sees.bind fun _ _ => ite (.pure trivial) expected
  exact hclosed.bind fun _ _ => .pure ⟨hs, hb, major, minor, hmajor, hminor, rfl⟩

end Yields
end Parser

/-- What a source text is read as is a program whose parts come from the text, or a diagnostic of
the text. -/
theorem Program.ends_parse [CharNames] (file : Int) (text : Text) :
    Diagnostic.Ends (Diagnostic.Located file text.length) (parse file text) fun p => p.Meets (.source file text.length) := by
  have heof : Token.Valid file text.length ⟨.endOfInput, ⟨text.length, text.length, file⟩⟩ :=
    ⟨⟨rfl, Int.natCast_nonneg _, Int.le_refl _, Int.le_refl _⟩, trivial⟩
  have hitems : Token.ValidItems file text.length (Token.items file text) :=
    ⟨fun _ ht => Token.valid_items ht, fun _ hd => Token.located_items hd⟩
  refine (Window.valid_start? heof hitems).bind fun w hw => ?_
  exact (Parser.Yields.program _ w hw).bind fun r hr => hr.2

/-- The spans of a program lie in the source text that it is read from, its literals and operators
are ones that can be written, and its names are identifiers. -/
theorem Program.meets_of_parse [CharNames] {text : Text} {p : Program}
    (h : parse file text = .ok p) : p.Meets (.source file text.length) := by
  have hends := ends_parse file text
  rw [h] at hends
  exact hends

/-- A text that is not a program has a diagnostic that points into it, or ends with an ellipsis. -/
theorem Program.located_of_parse [CharNames] {text : Text} {d : Diagnostic}
    (h : parse file text = .error d) : d.Located file text.length := by
  have hends := ends_parse file text
  rw [h] at hends
  exact hends

end LolToolchain
