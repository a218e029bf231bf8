import LolToolchain.Proofs.Program.Reading
import Mathlib.Logic.Basic

/-!
Reading a program does not depend on where its tokens stand. Each parser is compared with itself on
the same tokens without their spans: what it yields, and the diagnostic that it stops with, are the
same up to spans. Two texts with the same tokens are thus read as the same program.
-/
namespace LolToolchain

def Token.unspanned (t : Token) : Token :=
  ⟨t.lexeme.unspanned, .zero⟩

namespace Diagnostic

def Note.unspanned (n : Note) : Note :=
  { n with span := .zero }

/-- The class and the messages of a diagnostic. -/
def unspanned (d : Diagnostic) : Diagnostic :=
  ⟨d.kind, .zero, d.message, d.notes.map Note.unspanned⟩

/-- A result without spans; `f` takes them out of what it holds. -/
def erased {α β : Type} (f : α → β) : Except Diagnostic α → Except Diagnostic β
  | .ok a => .ok (f a)
  | .error d => .error d.unspanned

end Diagnostic

theorem ParseFault.unspanned_toDiagnostic (f : ParseFault) (s : Span) :
    (f.toDiagnostic s).unspanned = f.toDiagnostic .zero :=
  rfl

theorem Token.kind_unspanned (t : Token) : t.unspanned.kind = t.kind :=
  t.lexeme.kind_unspanned

theorem Token.describe_unspanned (t : Token) : t.unspanned.describe = t.describe := by
  obtain ⟨lexeme, span⟩ := t
  cases lexeme with
  | string text insertions => rfl
  | _ => rfl

namespace Window

open Diagnostic (erased)

def unspanned (w : Window) : Window :=
  ⟨w.current.unspanned, w.ahead.map (erased Token.unspanned), 0⟩

theorem show?_unspanned (t : Token) (ahead : List (Except Diagnostic Token)) (prevEnd : Int) :
    show? t.unspanned (ahead.map (erased Token.unspanned)) 0 =
      erased unspanned (show? t ahead prevEnd) := by
  cases ahead with
  | nil => rfl
  | cons item rest => cases item <;> rfl

theorem start?_unspanned (eof : Token) (items : List (Except Diagnostic Token)) :
    start? eof.unspanned (items.map (erased Token.unspanned)) =
      erased unspanned (start? eof items) := by
  cases items with
  | nil => rfl
  | cons item rest =>
    cases item with
    | error d => rfl
    | ok t => exact show?_unspanned t rest 0

theorem advance_unspanned (w : Window) : w.unspanned.advance = erased unspanned w.advance := by
  obtain ⟨t, ahead, prevEnd⟩ := w
  cases ahead with
  | nil => rfl
  | cons item rest =>
    cases item with
    | error d => rfl
    | ok t' => exact show?_unspanned t' rest _

theorem skipBreaks_unspanned (t : Token) (ahead : List (Except Diagnostic Token)) (prevEnd : Int) :
    skipBreaks t.unspanned (ahead.map (erased Token.unspanned)) 0 =
      erased unspanned (skipBreaks t ahead prevEnd) := by
  induction ahead generalizing t prevEnd with
  | nil =>
    rw [List.map_nil, skipBreaks.eq_def, skipBreaks.eq_def, t.kind_unspanned]
    split <;> rfl
  | cons item rest ih =>
    rw [List.map_cons, skipBreaks.eq_def, skipBreaks.eq_def, t.kind_unspanned]
    split
    · cases item with
      | error d => rfl
      | ok t' => exact ih t' _
    · exact show?_unspanned t (item :: rest) prevEnd

theorem nextKind_unspanned (w : Window) : w.unspanned.nextKind = w.nextKind := by
  obtain ⟨t, ahead, prevEnd⟩ := w
  cases ahead with
  | nil => exact t.kind_unspanned
  | cons item rest =>
    cases item with
    | error d => exact t.kind_unspanned
    | ok t' => exact t'.kind_unspanned

end Window

/-- A block without regard to where it stands. -/
def Block.unspanned : Block → Block
  | .mk _ body => .mk .zero (Stmt.unspannedAll body)

private theorem Stmt.span_unspanned (s : Stmt) : s.unspanned.span = .zero := by
  cases s with
  | define _ _ _ b | loop _ _ _ _ b =>
    cases b
    rfl
  | _ => rfl

theorem Stmt.span_of_mem_unspannedAll {s : Stmt} {ss : List Stmt} (h : s ∈ Stmt.unspannedAll ss) :
    s.span = .zero := by
  induction ss with
  | nil => cases h
  | cons s' ss ih =>
    rcases List.mem_cons.1 h with rfl | h
    · exact s'.span_unspanned
    · exact ih h

namespace Parser

open Diagnostic (erased)

/-- `y` does without spans what `x` does with them; `f` takes the spans out of what it yields. -/
def Erases {α β : Type} (f : α → β) (x : Parser α) (y : Parser β) : Prop :=
  ∀ w : Window, y w.unspanned = erased (fun r => (f r.1, r.2.unspanned)) (x w)

namespace Erases

variable {α β α' β' : Type} {f : α → α'} {g : β → β'} {x : Parser α} {x' : Parser α'}
  {h : α → Parser β} {h' : α' → Parser β'}

theorem pure {a : α} : Erases f (pure a) (pure (f a)) :=
  fun _ => rfl

theorem bind (hx : Erases f x x') (hh : ∀ a, Erases g (h a) (h' (f a))) :
    Erases g (x >>= h) (x' >>= h') := by
  intro w
  change (x' w.unspanned >>= fun r => h' r.1 r.2) = erased _ (x w >>= fun r => h r.1 r.2)
  rw [hx w]
  cases x w with
  | error d => rfl
  | ok r => exact hh r.1 r.2

/-- What is yielded is put into a larger tree. -/
theorem map {k : α → β} {k' : α' → β'} (hx : Erases f x x') (hk : ∀ a, k' (f a) = g (k a)) :
    Erases g (k <$> x) (k' <$> x') := by
  rw [map_eq_pure_bind, map_eq_pure_bind]
  refine hx.bind fun a => ?_
  rw [hk]
  exact pure

theorem ite {p : Prop} [Decidable p] {y : Parser α} {y' : Parser α'} (hx : Erases f x x')
    (hy : Erases f y y') : Erases f (if p then x else y) (if p then x' else y') := by
  split
  · exact hx
  · exact hy

theorem throw {d : Diagnostic} : Erases f (throw d) (throw d.unspanned) :=
  fun _ => rfl

theorem get : Erases Window.unspanned get get :=
  fun _ => rfl

theorem current : Erases Token.unspanned current current :=
  fun _ => rfl

theorem kind : Erases (fun k => k) kind kind := by
  refine current.bind fun t => ?_
  rw [t.kind_unspanned]
  exact pure (f := fun k => k)

theorem sees {k : TokenKind} : Erases (fun b => b) (sees k) (sees k) :=
  kind.bind fun _ => pure (f := fun b => b)

theorem seesWord {k : Keyword} : Erases (fun b => b) (seesWord k) (seesWord k) :=
  sees

theorem advance : Erases (fun u => u) advance advance := by
  intro w
  change (w.unspanned.advance >>= fun v => Except.ok ((), v)) =
    erased _ (w.advance >>= fun v => Except.ok ((), v))
  rw [w.advance_unspanned]
  cases w.advance <;> rfl

theorem skipBreaks : Erases (fun u => u) skipBreaks skipBreaks := by
  intro w
  change (Window.skipBreaks w.current.unspanned (w.ahead.map (erased Token.unspanned)) 0 >>=
    fun v => Except.ok ((), v)) = erased _ (Window.skipBreaks w.current w.ahead w.prevEnd >>=
    fun v => Except.ok ((), v))
  rw [Window.skipBreaks_unspanned w.current w.ahead w.prevEnd]
  cases Window.skipBreaks w.current w.ahead w.prevEnd <;> rfl

theorem fail {fault : ParseFault} {span : Span} :
    Erases f (fail fault span) (fail fault .zero) :=
  throw

theorem expected {what : Text} : Erases f (expected what) (expected what) := by
  refine current.bind fun t => ?_
  intro w
  change Except.error _ = Except.error _
  rw [ParseFault.unspanned_toDiagnostic]
  simp only [ParseFault.toDiagnostic, ParseFault.message, t.describe_unspanned]
  rfl

theorem exhausted : Erases f exhausted exhausted :=
  current.bind fun _ => fail

theorem expect {k : TokenKind} : Erases (fun u => u) (expect k) (expect k) :=
  sees.bind fun _ => ite advance expected

theorem expectWord {k : Keyword} : Erases (fun u => u) (expectWord k) (expectWord k) :=
  expect

theorem expectWords {ks : List Keyword} : Erases (fun u => u) (expectWords ks) (expectWords ks) := by
  induction ks with
  | nil => exact pure (f := fun u => u)
  | cons k ks ih => exact expectWord.bind fun _ => ih

theorem accept {k : Keyword} : Erases (fun b => b) (accept k) (accept k) :=
  seesWord.bind fun _ => ite (advance.bind fun _ => pure (f := fun b => b)) (pure (f := fun b => b))

theorem expectBreak : Erases (fun u => u) expectBreak expectBreak :=
  expect.bind fun _ => skipBreaks

/-- Without spans every node has the empty span. -/
theorem spanFrom {start : Span} :
    Erases (fun _ => Span.zero) (spanFrom start) (spanFrom .zero) :=
  fun _ => rfl

theorem ident : Erases Ident.unspanned ident ident := by
  refine current.bind fun t => ?_
  obtain ⟨lexeme, span⟩ := t
  cases lexeme with
  | identifier name => exact advance.bind fun _ => pure
  | _ => exact expected

theorem target : Erases Ident.unspanned target target :=
  current.bind fun _ => accept.bind fun _ => ite pure ident

theorem typeName : Erases (fun t => t) typeName typeName := by
  refine kind.bind fun k => ?_
  split
  · split
    · exact advance.bind fun _ => pure (f := fun t => t)
    · exact expected
  · exact expected

theorem number {whole : Text} {span : Span} :
    Erases Expr.unspanned (number whole span) (number whole .zero) := by
  refine advance.bind fun _ => sees.bind fun _ => ite ?_ ?_
  · refine advance.bind fun _ => current.bind fun t => ?_
    obtain ⟨lexeme, place⟩ := t
    cases lexeme with
    | number fraction =>
      refine ite expected (advance.bind fun _ => ?_)
      split
      · exact pure
      · exact fail
    | _ => exact expected
  · split
    · exact pure
    · exact fail

variable {sub : Parser Expr} {start : Span} {fuel : Nat}

theorem operands {op : BinaryOp} (hsub : Erases Expr.unspanned sub sub) :
    Erases Expr.unspanned (operands sub start op) (operands sub .zero op) :=
  hsub.bind fun _ => expectWord.bind fun _ => hsub.bind fun _ => spanFrom.bind fun _ => pure

private theorem looseOperands {op : BinaryOp} (hsub : Erases Expr.unspanned sub sub) :
    Erases Expr.unspanned (looseOperands sub start op) (looseOperands sub .zero op) :=
  hsub.bind fun _ => accept.bind fun _ => hsub.bind fun _ => spanFrom.bind fun _ => pure

private theorem untilMkay (hsub : Erases Expr.unspanned sub sub) :
    Erases Expr.unspannedAll (untilMkay sub fuel) (untilMkay sub fuel) := by
  induction fuel with
  | zero => exact exhausted
  | succ fuel ih =>
    refine accept.bind fun _ => ite pure (sees.bind fun _ => sees.bind fun _ => ite expected ?_)
    exact hsub.bind fun _ => accept.bind fun _ => ih.bind fun _ => pure

private theorem concatParts (hsub : Erases Expr.unspanned sub sub) :
    Erases Expr.unspannedAll (concatParts sub fuel) (concatParts sub fuel) := by
  induction fuel with
  | zero => exact exhausted
  | succ fuel ih =>
    refine hsub.bind fun x => accept.bind fun _ => ite (ih.bind fun _ => pure) ?_
    refine accept.bind fun _ => ite pure ?_
    refine sees.bind fun _ => sees.bind fun _ => sees.bind fun _ => ite pure ?_
    exact ih.bind fun _ => pure

private theorem callArgs (hsub : Erases Expr.unspanned sub sub) :
    Erases Expr.unspannedAll (callArgs sub fuel) (callArgs sub fuel) := by
  induction fuel with
  | zero => exact exhausted
  | succ fuel ih =>
    refine expectWord.bind fun _ => hsub.bind fun _ => accept.bind fun _ => ite ?_ pure
    exact ih.bind fun _ => pure

private theorem listElems (hsub : Erases Expr.unspanned sub sub) :
    Erases Expr.unspannedAll (listElems sub fuel) (listElems sub fuel) := by
  induction fuel with
  | zero => exact exhausted
  | succ fuel ih =>
    refine seesWord.bind fun _ => ite pure (hsub.bind fun _ => accept.bind fun _ => ite ?_ pure)
    exact ih.bind fun _ => pure

private theorem wordExpr (hsub : Erases Expr.unspanned sub sub) {t : Token} {k : Keyword} :
    Erases Expr.unspanned (wordExpr sub fuel t k) (wordExpr sub fuel t.unspanned k) := by
  unfold Parser.wordExpr
  split
  case h_1 | h_2 | h_3 | h_4 => exact advance.bind fun _ => pure
  case h_5 =>
    refine get.bind fun w => ?_
    rw [w.nextKind_unspanned]
    refine ite ?_ ?_
    · exact advance.bind fun _ => advance.bind fun _ => looseOperands hsub
    · exact advance.bind fun _ => expectWord.bind fun _ => operands hsub
  case h_6 => exact advance.bind fun _ => looseOperands hsub
  case h_7 =>
    exact advance.bind fun _ => hsub.bind fun _ => spanFrom.bind fun _ => pure
  case h_8 =>
    exact advance.bind fun _ => expectWord.bind fun _ => hsub.bind fun _ =>
      spanFrom.bind fun _ => pure
  case h_9 | h_10 =>
    exact advance.bind fun _ => expectWord.bind fun _ => (untilMkay hsub).bind fun _ =>
      spanFrom.bind fun _ => pure
  case h_11 =>
    exact advance.bind fun _ => (concatParts hsub).bind fun _ => spanFrom.bind fun _ => pure
  case h_12 =>
    exact advance.bind fun _ => hsub.bind fun _ => accept.bind fun _ => typeName.bind fun _ =>
      spanFrom.bind fun _ => pure
  case h_13 =>
    refine expectWords.bind fun _ => ident.bind fun id => seesWord.bind fun _ => ?_
    have hrest (xs : List Expr) : Erases Expr.unspanned
        (do Parser.expectWord .MKAY; return .call (← Parser.spanFrom t.span) id xs)
        (do
          Parser.expectWord .MKAY
          return .call (← Parser.spanFrom .zero) id.unspanned (Expr.unspannedAll xs)) :=
      expectWord.bind fun _ => spanFrom.bind fun _ => pure
    exact ite ((callArgs hsub).bind hrest) (hrest [])
  case h_14 =>
    have hrest (xs : List Expr) : Erases Expr.unspanned
        (do return .list (← Parser.spanFrom t.span) xs)
        (do return .list (← Parser.spanFrom .zero) (Expr.unspannedAll xs)) :=
      spanFrom.bind fun _ => pure
    refine advance.bind fun _ => accept.bind fun _ => ite ?_ (hrest [])
    exact (listElems hsub).bind fun xs => expectWord.bind fun _ => hrest xs
  case h_15 =>
    refine advance.bind fun _ => accept.bind fun _ => ite ?_ (accept.bind fun _ => ite ?_ ?_)
    · exact expectWord.bind fun _ => hsub.bind fun _ => spanFrom.bind fun _ => pure
    · exact expectWord.bind fun _ => hsub.bind fun _ => spanFrom.bind fun _ => pure
    · exact hsub.bind fun _ => expectWord.bind fun _ => hsub.bind fun _ =>
        spanFrom.bind fun _ => pure
  case h_16 =>
    split
    · exact advance.bind fun _ => expectWord.bind fun _ => operands hsub
    · exact expected

private theorem unspanned_spliceOf (insertions : List Insertion) :
    (insertions.map Insertion.unspanned).map spliceOf =
      (insertions.map spliceOf).map Splice.unspanned := by
  rw [List.map_map, List.map_map]
  rfl

private theorem exprForm (hsub : Erases Expr.unspanned sub sub) :
    Erases Expr.unspanned (exprForm sub fuel) (exprForm sub fuel) := by
  refine current.bind fun t => ?_
  obtain ⟨lexeme, span⟩ := t
  cases lexeme with
  | number digits => exact number
  | string text insertions =>
    cases insertions with
    | nil => exact advance.bind fun _ => pure
    | cons i insertions =>
      refine advance.bind fun _ => ?_
      rw [unspanned_spliceOf (i :: insertions)]
      exact pure (a := Expr.interp span text ((i :: insertions).map spliceOf))
  | identifier name => exact advance.bind fun _ => pure
  | keyword k spelling => exact wordExpr hsub
  | _ => exact expected

theorem expr : Erases Expr.unspanned (expr fuel) (expr fuel) := by
  induction fuel with
  | zero => exact exhausted
  | succ fuel ih => exact exprForm ih

variable {block : List Keyword → Parser Block}

theorem atEnd {ends : List Keyword} : Erases (fun b => b) (atEnd ends) (atEnd ends) := by
  refine get.bind fun w => ?_
  rw [w.nextKind_unspanned]
  dsimp only [Window.unspanned]
  rw [w.current.kind_unspanned]
  exact pure (f := fun b => b)

theorem params : Erases (List.map Ident.unspanned) (params fuel) (params fuel) := by
  induction fuel with
  | zero => exact exhausted
  | succ fuel ih =>
    refine expectWord.bind fun _ => ident.bind fun x => accept.bind fun _ => ite ?_ ?_
    · exact ih.bind fun xs => pure (a := x :: xs)
    · exact pure (a := [x])

theorem arms (hsub : Erases Expr.unspanned sub sub)
    (hblock : ∀ ends, Erases Block.unspanned (block ends) (block ends)) {word : Keyword}
    {ends : List Keyword} :
    Erases Arm.unspannedAll (arms sub block word ends fuel) (arms sub block word ends fuel) := by
  induction fuel with
  | zero => exact exhausted
  | succ fuel ih =>
    refine accept.bind fun _ => ite ?_ pure
    refine hsub.bind fun test => expectBreak.bind fun _ => (hblock _).bind fun body => ?_
    obtain ⟨s, body⟩ := body
    exact ih.bind fun arms => pure (a := .mk test (.mk s body) :: arms)

theorem printArgs (hsub : Erases Expr.unspanned sub sub) :
    Erases Expr.unspannedAll (printArgs sub fuel) (printArgs sub fuel) := by
  induction fuel with
  | zero => exact exhausted
  | succ fuel ih =>
    refine hsub.bind fun x => accept.bind fun _ => ite (ih.bind fun _ => pure) ?_
    refine sees.bind fun _ => sees.bind fun _ => sees.bind fun _ => ite pure ?_
    exact ih.bind fun _ => pure

theorem loopUpdate (hsub : Erases Expr.unspanned sub sub) :
    Erases LoopUpdate.unspanned (loopUpdate sub) (loopUpdate sub) := by
  refine current.bind fun t => ?_
  have hrest (change : LoopChange) : Erases LoopUpdate.unspanned (do
        Parser.expectWord .YR
        let v ← Parser.ident
        if ← Parser.accept .TIL then return ⟨change, v, .untilTrue (← sub)⟩
        else if ← Parser.accept .WILE then return ⟨change, v, .whileTrue (← sub)⟩
        else return ⟨change, v, .forever⟩) (do
        Parser.expectWord .YR
        let v ← Parser.ident
        if ← Parser.accept .TIL then return ⟨change.unspanned, v, .untilTrue (← sub)⟩
        else if ← Parser.accept .WILE then return ⟨change.unspanned, v, .whileTrue (← sub)⟩
        else return ⟨change.unspanned, v, .forever⟩) := by
    refine expectWord.bind fun _ => ident.bind fun v => accept.bind fun _ => ite ?_ ?_
    · exact hsub.bind fun x => pure (a := LoopUpdate.mk change v (.untilTrue x))
    · refine accept.bind fun _ => ite ?_ ?_
      · exact hsub.bind fun x => pure (a := LoopUpdate.mk change v (.whileTrue x))
      · exact pure (a := LoopUpdate.mk change v .forever)
  obtain ⟨lexeme, span⟩ := t
  cases lexeme with
  | identifier name => exact ident.bind fun id => hrest (.apply id)
  | keyword k spelling =>
    cases k with
    | UPPIN => exact advance.bind fun _ => hrest .up
    | NERFIN => exact advance.bind fun _ => hrest .down
    | _ => exact expected.bind hrest
  | _ => exact expected.bind hrest

theorem exprStmt (hsub : Erases Expr.unspanned sub sub) :
    Erases Stmt.unspanned (exprStmt sub start) (exprStmt sub .zero) :=
  hsub.bind fun _ => spanFrom.bind fun _ => pure

theorem declaration (hsub : Erases Expr.unspanned sub sub) :
    Erases Stmt.unspanned (declaration sub start) (declaration sub .zero) := by
  refine expectWords.bind fun _ => ident.bind fun id => ?_
  have hrest (initial : Initial) : Erases Stmt.unspanned
      (do return .declare (← Parser.spanFrom start) id initial)
      (do return .declare (← Parser.spanFrom .zero) id.unspanned initial.unspanned) :=
    spanFrom.bind fun s => pure (a := Stmt.declare s id initial)
  refine accept.bind fun _ => ite (accept.bind fun _ => ite ?_ ?_) (hrest .absent)
  · exact (typeName.map (g := Initial.unspanned) fun _ => rfl).bind hrest
  · exact (hsub.map (g := Initial.unspanned) fun _ => rfl).bind hrest

theorem assignment (hsub : Erases Expr.unspanned sub sub) :
    Erases Stmt.unspanned (assignment sub start) (assignment sub .zero) :=
  target.bind fun _ => expectWord.bind fun _ => hsub.bind fun _ => spanFrom.bind fun _ => pure

theorem castStmt : Erases Stmt.unspanned (castStmt start) (castStmt .zero) :=
  ident.bind fun _ => expectWords.bind fun _ => typeName.bind fun _ => spanFrom.bind fun _ => pure

theorem loadStmt : Erases Stmt.unspanned (loadStmt start) (loadStmt .zero) :=
  expectWords.bind fun _ => ident.bind fun _ => expect.bind fun _ => spanFrom.bind fun _ => pure

theorem definition (hblock : ∀ ends, Erases Block.unspanned (block ends) (block ends)) :
    Erases Stmt.unspanned (definition block fuel start) (definition block fuel .zero) := by
  refine expectWords.bind fun _ => ident.bind fun id => ?_
  have hrest (ps : List Ident) : Erases Stmt.unspanned (do
      Parser.expectBreak
      let body ← block [.IF]
      Parser.expectWords [.IF, .U, .SAY, .SO]
      return .define (← Parser.spanFrom start) id ps body) (do
      Parser.expectBreak
      let body ← block [.IF]
      Parser.expectWords [.IF, .U, .SAY, .SO]
      return .define (← Parser.spanFrom .zero) id.unspanned (ps.map Ident.unspanned) body) := by
    refine expectBreak.bind fun _ => (hblock _).bind fun b => ?_
    obtain ⟨s, body⟩ := b
    exact expectWords.bind fun _ => spanFrom.bind fun _ => pure
  exact seesWord.bind fun _ => ite (params.bind hrest) (hrest [])

section Optional

variable {β β' : Type} {g : β → β'} {rest : Option Block → Parser β}
  {rest' : Option Block → Parser β'} {x y : Parser Unit} {ends : List Keyword} {b : Bool}

theorem someBlock (hblock : ∀ ends, Erases Block.unspanned (block ends) (block ends))
    (hrest : ∀ b, Erases g (rest b) (rest' (Block.unspannedOption b))) :
    Erases g (some <$> block ends >>= rest) (some <$> block ends >>= rest') := by
  refine ((hblock ends).map fun b => ?_).bind hrest
  obtain ⟨s, body⟩ := b
  rfl

/-- A block behind a line break, or none. -/
private theorem optional (hx : Erases (fun u => u) x x)
    (hblock : ∀ ends, Erases Block.unspanned (block ends) (block ends))
    (hrest : ∀ b, Erases g (rest b) (rest' (Block.unspannedOption b))) :
    Erases g (if b then x >>= fun _ => some <$> block ends >>= rest else rest none)
      (if b then x >>= fun _ => some <$> block ends >>= rest' else rest' none) :=
  ite (hx.bind fun _ => someBlock hblock hrest) (hrest none)

/-- A block behind a word and a line break, or none. -/
private theorem optionalWord (hx : Erases (fun u => u) x x) (hy : Erases (fun u => u) y y)
    (hblock : ∀ ends, Erases Block.unspanned (block ends) (block ends))
    (hrest : ∀ b, Erases g (rest b) (rest' (Block.unspannedOption b))) :
    Erases g
      (if b then x >>= fun _ => y >>= fun _ => some <$> block ends >>= rest else rest none)
      (if b then x >>= fun _ => y >>= fun _ => some <$> block ends >>= rest' else rest' none) :=
  ite (hx.bind fun _ => hy.bind fun _ => someBlock hblock hrest) (hrest none)

end Optional

theorem switchStmt (hsub : Erases Expr.unspanned sub sub)
    (hblock : ∀ ends, Erases Block.unspanned (block ends) (block ends)) :
    Erases Stmt.unspanned (switchStmt sub block fuel start) (switchStmt sub block fuel .zero) := by
  refine expectWord.bind fun _ => expect.bind fun _ => expectBreak.bind fun _ => ?_
  refine (arms hsub hblock).bind fun cases => accept.bind fun _ => ?_
  refine optional expectBreak hblock fun otherwise => ?_
  exact expectWord.bind fun _ => spanFrom.bind fun _ => pure

theorem branchStmt (hsub : Erases Expr.unspanned sub sub)
    (hblock : ∀ ends, Erases Block.unspanned (block ends) (block ends)) :
    Erases Stmt.unspanned (branchStmt sub block fuel start) (branchStmt sub block fuel .zero) := by
  refine expectWords.bind fun _ => expect.bind fun _ => expectBreak.bind fun _ => ?_
  refine accept.bind fun _ => optionalWord expectWord expectBreak hblock fun yes => ?_
  refine (arms hsub hblock).bind fun cases => accept.bind fun _ => ?_
  refine optionalWord expectWord expectBreak hblock fun no => ?_
  exact expectWord.bind fun _ => spanFrom.bind fun _ => pure

private theorem loopStmt (hsub : Erases Expr.unspanned sub sub)
    (hblock : ∀ ends, Erases Block.unspanned (block ends) (block ends)) :
    Erases Stmt.unspanned (loopStmt sub block start) (loopStmt sub block .zero) := by
  refine expectWords.bind fun _ => ident.bind fun label => sees.bind fun _ => ?_
  have hrest (update : Option LoopUpdate) : Erases Stmt.unspanned (do
        Parser.expectBreak
        let body ← block [.IM]
        Parser.expectWords [.IM, .OUTTA, .YR]
        let close ← Parser.ident
        if close.name == label.name then
          return .loop (← Parser.spanFrom start) label close update body
        else
          throwThe Diagnostic (((ParseFault.labelMismatch label.name close.name).toDiagnostic
            close.span).annotate label.span ("loop " ++ label.name ++ " opened here"))) (do
        Parser.expectBreak
        let body ← block [.IM]
        Parser.expectWords [.IM, .OUTTA, .YR]
        let close ← Parser.ident
        if close.name == label.name then
          return .loop (← Parser.spanFrom .zero) label.unspanned close
            (update.map LoopUpdate.unspanned) body
        else
          throwThe Diagnostic (((ParseFault.labelMismatch label.name close.name).toDiagnostic
            close.span).annotate .zero ("loop " ++ label.name ++ " opened here"))) := by
    refine expectBreak.bind fun _ => (hblock _).bind fun b => expectWords.bind fun _ => ?_
    obtain ⟨s, body⟩ := b
    refine ident.bind fun close => ite ?_ throw
    exact spanFrom.bind fun s' => pure (a := Stmt.loop s' label close update (.mk s body))
  refine ite (hrest none) (((loopUpdate hsub).map fun u => ?_).bind hrest)
  rfl

private theorem printStmt (hsub : Erases Expr.unspanned sub sub) :
    Erases Stmt.unspanned (printStmt sub fuel start) (printStmt sub fuel .zero) := by
  refine advance.bind fun _ => (printArgs hsub).bind fun args => sees.bind fun quiet => ?_
  refine ite (advance.bind fun _ => ?_) ?_
  · exact spanFrom.bind fun _ => pure
  · exact spanFrom.bind fun _ => pure

private theorem readStmt : Erases Stmt.unspanned (readStmt start) (readStmt .zero) :=
  advance.bind fun _ => target.bind fun _ => spanFrom.bind fun _ => pure

private theorem putStmt (hsub : Erases Expr.unspanned sub sub) :
    Erases Stmt.unspanned (putStmt sub start) (putStmt sub .zero) := by
  refine advance.bind fun _ => hsub.bind fun _ => expectWords.bind fun _ => ?_
  refine ident.bind fun _ => accept.bind fun _ => ite ?_ ?_
  · exact hsub.bind fun _ => spanFrom.bind fun _ => pure
  · exact spanFrom.bind fun _ => pure

private theorem returnStmt (hsub : Erases Expr.unspanned sub sub) :
    Erases Stmt.unspanned (returnStmt sub start) (returnStmt sub .zero) :=
  expectWords.bind fun _ => hsub.bind fun _ => spanFrom.bind fun _ => pure

private theorem stmtForm (hsub : Erases Expr.unspanned sub sub)
    (hblock : ∀ ends, Erases Block.unspanned (block ends) (block ends)) :
    Erases Stmt.unspanned (stmtForm sub block fuel) (stmtForm sub block fuel) := by
  refine current.bind fun t => get.bind fun w => ?_
  rw [w.nextKind_unspanned]
  obtain ⟨lexeme, span⟩ := t
  cases lexeme with
  | identifier name => exact ite (assignment hsub) (ite castStmt (exprStmt hsub))
  | keyword k spelling =>
    dsimp only [Token.unspanned, Lexeme.unspanned]
    split
    case h_1 => exact ite (exprStmt hsub) (declaration hsub)
    case h_2 => exact ite (assignment hsub) (exprStmt hsub)
    case h_3 => exact loadStmt
    case h_4 => exact definition hblock
    case h_5 => exact switchStmt hsub hblock
    case h_6 => exact branchStmt hsub hblock
    case h_7 => exact advance.bind fun _ => pure
    case h_8 => exact loopStmt hsub hblock
    case h_9 => exact returnStmt hsub
    case h_10 => exact printStmt hsub
    case h_11 => exact readStmt
    case h_12 => exact putStmt hsub
    case h_13 => exact exprStmt hsub
  | _ => exact exprStmt hsub

theorem blockOf {stmts : Parser (List Stmt)} (h : Erases Stmt.unspannedAll stmts stmts) :
    Erases Block.unspanned (blockOf stmts) (blockOf stmts) := by
  refine current.bind fun t => h.bind fun ss => ?_
  dsimp only [Token.unspanned, Span.zero]
  cases hlast : (Stmt.unspannedAll ss).getLast? with
  | none => exact pure
  | some s =>
    dsimp only
    rw [Stmt.span_of_mem_unspannedAll (List.mem_of_getLast? hlast)]
    exact pure

private theorem stmts (hsub : Erases Expr.unspanned sub sub) (ends : List Keyword) :
    Erases Stmt.unspannedAll (stmts sub fuel ends) (stmts sub fuel ends) := by
  induction fuel generalizing ends with
  | zero => exact exhausted
  | succ fuel ih =>
    refine skipBreaks.bind fun _ => atEnd.bind fun _ => ite pure ?_
    refine (stmtForm hsub fun inner => blockOf (ih inner)).bind fun s => ?_
    refine sees.bind fun _ => atEnd.bind fun _ => ite ?_ expected
    exact (ih ends).bind fun _ => pure

private theorem digits : Erases (fun t => t) digits digits := by
  refine current.bind fun t => expect.bind fun _ => ?_
  obtain ⟨lexeme, span⟩ := t
  cases lexeme <;> exact pure (f := fun t => t)

private theorem program : Erases Program.unspanned (program fuel) (program fuel) := by
  refine skipBreaks.bind fun _ => current.bind fun t => expectWord.bind fun _ => ?_
  refine digits.bind fun major => expect.bind fun _ => digits.bind fun minor => ?_
  refine expectBreak.bind fun _ => (blockOf (stmts expr _)).bind fun b => ?_
  obtain ⟨s, body⟩ := b
  have hclosed : Erases (fun u => u) program.closed program.closed :=
    sees.bind fun _ => ite (pure (f := fun u => u)) expected
  exact expectWord.bind fun _ => spanFrom.bind fun _ => skipBreaks.bind fun _ =>
    hclosed.bind fun _ => pure

end Erases
end Parser

open Diagnostic (erased)

/-- Tokens form the same program, or the same fault, without their spans. -/
private theorem Program.ofItems_unspanned (eof : Token) (items : List (Except Diagnostic Token)) :
    ofItems eof.unspanned (items.map (erased Token.unspanned)) =
      erased unspanned (ofItems eof items) := by
  rw [ofItems, ofItems, Window.start?_unspanned, List.length_map]
  cases Window.start? eof items with
  | error d => rfl
  | ok w =>
    change (Parser.program _ w.unspanned >>= fun r => Except.ok r.1) =
      erased _ (Parser.program _ w >>= fun r => Except.ok r.1)
    rw [Parser.Erases.program w]
    cases Parser.program (items.length + 1) w <;> rfl

/-- Source texts with the same items up to spans spell the same program up to spans. -/
theorem Program.parse_unspanned [CharNames] {file file' : Int} {text text' : Text}
    (h : (Token.items file text).map (erased Token.unspanned) =
      (Token.items file' text').map (erased Token.unspanned)) :
    erased unspanned (parse file text) = erased unspanned (parse file' text') := by
  rw [parse, parse, ← ofItems_unspanned, ← ofItems_unspanned, h]
  rfl

private theorem Splice.sameAll_unspanned (xs ys : List Splice) :
    sameAll (xs.map unspanned) (ys.map unspanned) = sameAll xs ys := by
  induction xs generalizing ys with
  | nil => cases ys <;> rfl
  | cons x xs ih =>
    cases ys with
    | nil => rfl
    | cons y ys => exact congrArg (x.same y && ·) (ih ys)

namespace Expr

mutual

theorem hasCall_unspanned : ∀ x : Expr, x.unspanned.hasCall = x.hasCall
  | .call _ _ _ => rfl
  | .list _ xs | .concat _ xs | .nary _ _ xs => anyCall_unspanned xs
  | .cast _ x _ | .unary _ _ x | .pickFront _ x | .pickBack _ x => hasCall_unspanned x
  | .binary _ _ x y | .pickAt _ x y =>
    congrArg₂ (· || ·) (hasCall_unspanned x) (hasCall_unspanned y)
  | .int _ _ | .float _ _ | .string _ _ | .interp _ _ _ | .bool _ _ | .null _ | .it _
  | .var _ _ => rfl

theorem anyCall_unspanned : ∀ xs : List Expr, anyCall (unspannedAll xs) = anyCall xs
  | [] => rfl
  | x :: xs => congrArg₂ (· || ·) (hasCall_unspanned x) (anyCall_unspanned xs)

end

theorem notNumeric_unspanned (x : Expr) : x.unspanned.notNumeric = x.notNumeric := by
  cases x <;> rfl

mutual

theorem same_unspanned : ∀ x y : Expr, x.unspanned.same y.unspanned = x.same y
  | .int _ _, y | .float _ _, y | .string _ _, y | .bool _ _, y | .null _, y | .it _, y
  | .var _ _, y => by cases y <;> rfl
  | .interp _ t xs, y => by
    cases y with
    | interp _ u ys => exact congrArg (t == u && ·) (Splice.sameAll_unspanned xs ys)
    | _ => rfl
  | .list _ xs, y => by
    cases y with
    | list _ ys => exact sameAll_unspanned xs ys
    | _ => rfl
  | .concat _ xs, y => by
    cases y with
    | concat _ ys => exact sameAll_unspanned xs ys
    | _ => rfl
  | .call _ a xs, y => by
    cases y with
    | call _ b ys => exact congrArg (a.name == b.name && ·) (sameAll_unspanned xs ys)
    | _ => rfl
  | .nary _ o xs, y => by
    cases y with
    | nary _ p ys => exact congrArg (o == p && ·) (sameAll_unspanned xs ys)
    | _ => rfl
  | .cast _ x t, y => by
    cases y with
    | cast _ y u => exact congrArg (t == u && ·) (same_unspanned x y)
    | _ => rfl
  | .unary _ o x, y => by
    cases y with
    | unary _ p y => exact congrArg (o == p && ·) (same_unspanned x y)
    | _ => rfl
  | .pickFront _ x, y => by
    cases y with
    | pickFront _ y => exact same_unspanned x y
    | _ => rfl
  | .pickBack _ x, y => by
    cases y with
    | pickBack _ y => exact same_unspanned x y
    | _ => rfl
  | .binary _ o x x', y => by
    cases y with
    | binary _ p y y' =>
      exact congrArg₂ (fun b c => (o == p && b) && c) (same_unspanned x y) (same_unspanned x' y')
    | _ => rfl
  | .pickAt _ x x', y => by
    cases y with
    | pickAt _ y y' => exact congrArg₂ (· && ·) (same_unspanned x y) (same_unspanned x' y')
    | _ => rfl

theorem sameAll_unspanned : ∀ xs ys : List Expr,
    sameAll (unspannedAll xs) (unspannedAll ys) = sameAll xs ys
  | [], [] | [], _ :: _ | _ :: _, [] => rfl
  | x :: xs, y :: ys => congrArg₂ (· && ·) (same_unspanned x y) (sameAll_unspanned xs ys)

end

def Extreme.unspanned (m : Extreme) : Extreme :=
  ⟨m.isGreater, m.left.unspanned, m.right.unspanned⟩

private theorem extreme?_unspanned (x : Expr) : extreme? x.unspanned = (extreme? x).map Extreme.unspanned := by
  cases x with
  | binary s op a b => cases op <;> rfl
  | _ => rfl

private theorem extremeAndOther?_unspanned (x y : Expr) : extremeAndOther? x.unspanned y.unspanned =
    (extremeAndOther? x y).map fun r => (r.1.unspanned, r.2.unspanned) := by
  rw [extremeAndOther?, extremeAndOther?, extreme?_unspanned, extreme?_unspanned]
  cases extreme? x with
  | some m => rfl
  | none => cases extreme? y <;> rfl

private theorem Extreme.split?_unspanned (m : Extreme) (x : Expr) : m.unspanned.split? x.unspanned =
    (m.split? x).map fun r => (r.1.unspanned, r.2.unspanned) := by
  dsimp only [split?, Extreme.unspanned]
  rw [same_unspanned, same_unspanned]
  split
  · rfl
  · split <;> rfl

private theorem foldComparison_unspanned (s : Span) (op : BinaryOp) (x y : Expr) :
    foldComparison .zero op x.unspanned y.unspanned = (foldComparison s op x y).unspanned := by
  dsimp only [foldComparison]
  rw [extremeAndOther?_unspanned]
  split
  · rfl
  · cases extremeAndOther? x y with
    | none => rfl
    | some r =>
      obtain ⟨m, other⟩ := r
      dsimp only [Option.map_some]
      rw [hasCall_unspanned, notNumeric_unspanned, m.split?_unspanned]
      split
      · rfl
      · cases m.split? other with
        | none => rfl
        | some r =>
          dsimp only [Option.map_some]
          split <;> rfl

mutual

theorem simplify_unspanned : ∀ x : Expr, x.unspanned.simplify = x.simplify.unspanned
  | .int _ _ | .float _ _ | .string _ _ | .interp _ _ _ | .bool _ _ | .null _ | .it _
  | .var _ _ => rfl
  | .list _ xs => congrArg (list .zero) (simplifyAll_unspanned xs)
  | .call _ id xs => congrArg (call .zero id.unspanned) (simplifyAll_unspanned xs)
  | .concat _ xs => congrArg (concat .zero) (simplifyAll_unspanned xs)
  | .cast _ x t => congrArg (cast .zero · t) (simplify_unspanned x)
  | .nary _ op xs => congrArg (nary .zero op) (simplifyAll_unspanned xs)
  | .unary _ op x => congrArg (unary .zero op) (simplify_unspanned x)
  | .pickAt _ i x => congrArg₂ (pickAt .zero) (simplify_unspanned i) (simplify_unspanned x)
  | .pickFront _ x => congrArg (pickFront .zero) (simplify_unspanned x)
  | .pickBack _ x => congrArg (pickBack .zero) (simplify_unspanned x)
  | .binary s op x y => by
    rw [unspanned, simplify, simplify, simplify_unspanned x, simplify_unspanned y]
    exact foldComparison_unspanned s op x.simplify y.simplify

theorem simplifyAll_unspanned : ∀ xs : List Expr,
    simplifyAll (unspannedAll xs) = unspannedAll (simplifyAll xs)
  | [] => rfl
  | x :: xs => congrArg₂ List.cons (simplify_unspanned x) (simplifyAll_unspanned xs)

end

end Expr

private theorem Initial.simplify_unspanned (i : Initial) : i.unspanned.simplify = i.simplify.unspanned := by
  cases i with
  | value e => exact congrArg value e.simplify_unspanned
  | absent | typed t => rfl

private theorem LoopUpdate.simplify_unspanned (u : LoopUpdate) :
    u.unspanned.simplify = u.simplify.unspanned := by
  obtain ⟨change, counter, test⟩ := u
  cases test with
  | forever => rfl
  | untilTrue e =>
    exact congrArg (fun e => LoopUpdate.mk _ _ (.untilTrue e)) e.simplify_unspanned
  | whileTrue e =>
    exact congrArg (fun e => LoopUpdate.mk _ _ (.whileTrue e)) e.simplify_unspanned

mutual

theorem Stmt.simplify_unspanned : ∀ s : Stmt, s.unspanned.simplify = s.simplify.unspanned
  | .assign _ id x => congrArg (Stmt.assign .zero id.unspanned) x.simplify_unspanned
  | .append _ id x => congrArg (Stmt.append .zero id.unspanned) x.simplify_unspanned
  | .declare _ id i => congrArg (Stmt.declare .zero id.unspanned) i.simplify_unspanned
  | .expr _ x => congrArg (Stmt.expr .zero) x.simplify_unspanned
  | .ret _ x => congrArg (Stmt.ret .zero) x.simplify_unspanned
  | .load _ _ | .cast _ _ _ | .leave _ | .read _ _ => rfl
  | .define _ id params (.mk _ body) =>
    congrArg (fun b => Stmt.define .zero id.unspanned (params.map Ident.unspanned) (.mk .zero b))
      (Stmt.simplifyAll_unspanned body)
  | .switch _ arms otherwise =>
    congrArg₂ (Stmt.switch .zero) (Arm.simplifyAll_unspanned arms)
      (Block.simplifyOption_unspanned otherwise)
  | .branch _ yes arms no => by
    rw [Stmt.unspanned, Stmt.simplify, Stmt.simplify, Block.simplifyOption_unspanned yes,
      Arm.simplifyAll_unspanned arms, Block.simplifyOption_unspanned no]
    rfl
  | .loop _ label close update (.mk _ body) => by
    have hupdate : (update.map LoopUpdate.unspanned).map LoopUpdate.simplify =
        (update.map LoopUpdate.simplify).map LoopUpdate.unspanned := by
      cases update with
      | none => rfl
      | some u => exact congrArg some u.simplify_unspanned
    rw [Stmt.unspanned, Stmt.simplify, Stmt.simplify, hupdate, Block.simplify, Block.simplify,
      Stmt.simplifyAll_unspanned body]
    rfl
  | .print _ args newline =>
    congrArg (Stmt.print .zero · newline) (Expr.simplifyAll_unspanned args)
  | .store _ id i x =>
    congrArg₂ (Stmt.store .zero id.unspanned) i.simplify_unspanned x.simplify_unspanned

theorem Stmt.simplifyAll_unspanned : ∀ ss : List Stmt,
    Stmt.simplifyAll (Stmt.unspannedAll ss) = Stmt.unspannedAll (Stmt.simplifyAll ss)
  | [] => rfl
  | s :: ss => congrArg₂ List.cons (Stmt.simplify_unspanned s) (Stmt.simplifyAll_unspanned ss)

theorem Block.simplifyOption_unspanned : ∀ block : Option Block,
    Block.simplifyOption (Block.unspannedOption block) =
      Block.unspannedOption (Block.simplifyOption block)
  | none => rfl
  | some (.mk _ body) => congrArg (fun b => some (Block.mk .zero b)) (Stmt.simplifyAll_unspanned body)

theorem Arm.simplifyAll_unspanned : ∀ arms : List Arm,
    Arm.simplifyAll (Arm.unspannedAll arms) = Arm.unspannedAll (Arm.simplifyAll arms)
  | [] => rfl
  | .mk test (.mk _ body) :: arms => by
    rw [Arm.unspannedAll, Arm.simplifyAll, Arm.simplifyAll, Arm.simplify, Arm.simplify,
      test.simplify_unspanned, Block.simplify, Block.simplify, Stmt.simplifyAll_unspanned body,
      Arm.simplifyAll_unspanned arms]
    rfl

end

theorem Program.simplify_unspanned (p : Program) : p.unspanned.simplify = p.simplify.unspanned := by
  obtain ⟨s, version, body⟩ := p
  obtain ⟨s', ss⟩ := body
  exact congrArg (fun b => Program.mk .zero version (.mk .zero b)) (Stmt.simplifyAll_unspanned ss)

end LolToolchain
