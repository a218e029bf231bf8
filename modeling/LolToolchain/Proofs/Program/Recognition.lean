import LolToolchain.Proofs.Token.Items
import LolToolchain.Proofs.Program.Consumption
import LolToolchain.Text.CommonNames

/-!
What the parsers recognise. Each one consumes just the tokens that the tree it yields is written with,
so the spans of a program that is read mirror its tree; and a text that spells no program is turned
down at its first fault or in front of it.
-/
namespace LolToolchain
namespace Parser

open Grammar (Piece Node words listed Solid)
open Diagnostic (Ends)

variable {n fuel : Nat} {w₀ : Window} {ps : List Piece} {sub : Parser Expr}

/-- What is read is an expression. -/
abbrev YieldsExpr (w₀ : Window) (x : Expr) (w : Window) : Prop :=
  w₀.Reads [.node (.expr x)] w

/-- A fraction runs from its whole part to its last digit. -/
private theorem cover_fraction {w w₁ : Window} (hw₀ : w₀.Sound)
    (h : w₀.Reads [.token [.number], .token [.dot]] w) (hpasses : w.Passes [w.current] w₁) :
    w₀.current.span.cover w.current.span =
      ⟨w₀.current.span.start, w₁.prevEnd, w₀.current.span.file⟩ := by
  obtain ⟨ts, hts, hpassed⟩ := h
  cases hts with
  | @token _ whole _ _ _ _ hts =>
  cases hts with
  | @token _ dot _ _ _ _ hnil =>
  cases hnil
  obtain ⟨lo, hi, -, hwhole, hdot, hdots, hfraction, hstop, -⟩ := (hpassed.trans hpasses).row hw₀
  have hhead : w₀.current = whole := hpassed.head
  have hend : w₁.prevEnd = w.current.span.stop := hpasses.prevEnd
  rw [Span.cover, hhead, hend, Int.min_eq_left (by omega), Int.max_eq_right (by omega)]

theorem takes_number {whole : Text} (hkind : w₀.current.kind = .number) :
    From n w₀ [] (number whole w₀.current.span) (YieldsExpr w₀) := by
  refine .first hkind (by rintro ⟨⟩) (Grammar.fits_kind hkind) ?_
  refine .seesKind (by rintro ⟨⟩) (if_pos rfl) ?_ (.onFalse ?_)
  · refine .view fun hw hn w hw₁ => ?_
    cases hlexeme : w.current.lexeme with
    | number fraction =>
      have hnumber : w.current.kind = .number := congrArg Lexeme.kind hlexeme
      dsimp only
      split
      · exact From.expected hw hn w hw₁
      · refine From.step hw hw₁ (hnumber ▸ nofun) fun w₂ hw₂ => ?_
        have hspan := cover_fraction hw hw₁ hw₂
        cases Numbar.read? (whole ++ "." ++ fraction) with
        | some x =>
          have hlast : w.Reads [.token [.number]] w₂ := ⟨_, Grammar.fits_kind hnumber _, hw₂⟩
          exact (hw₁.trans hlast).node trivial trivial rfl hspan
        | none => exact w₀.stops_here (by rintro ⟨⟩) (by rw [hspan])
    | _ => exact From.expected hw hn w hw₁
  · cases readNumbr? whole with
    | some k => exact .pure fun w hw => hw.leaf trivial rfl rfl
    | none => exact .fail (by rintro ⟨⟩) rfl

section Operands

variable {op : BinaryOp}

theorem takes_operands (hsub : Takes n sub fun x => [.node (.expr x)]) (hps : Solid ps)
    (hop : words op.words = ps) :
    From (n + 1) w₀ ps (operands sub w₀.current.span op) (YieldsExpr w₀) := by
  refine .within hps hsub fun left => .bind takes_expectOptional fun _ => ?_
  refine .within hps.append.append hsub fun right => ?_
  exact .expr hps.append.append.append (fun _ => hop ▸ rfl) fun _ => rfl

theorem takes_looseOperands (hsub : Takes n sub fun x => [.node (.expr x)]) (hps : Solid ps)
    (hop : words op.words = ps) :
    From (n + 1) w₀ ps (looseOperands sub w₀.current.span op) (YieldsExpr w₀) := by
  refine .within hps hsub fun left => .bind takes_optional fun _ => ?_
  refine .within hps.append.append hsub fun right => ?_
  exact .expr hps.append.append.append (fun _ => hop ▸ rfl) fun _ => rfl

private theorem words_of_binaryOfWord? {k : Keyword} (h : binaryOfWord? k = some op) :
    op.words = [k, .OF] := by
  cases k <;> cases h <;> rfl

end Operands

section Lists

private theorem takes_untilMkay (hsub : Takes fuel sub fun x => [.node (.expr x)]) :
    Takes fuel (untilMkay sub fuel) fun xs => listed [] xs ++ words [.MKAY] := by
  induction fuel with
  | zero => exact takes_zero
  | succ fuel ih =>
    intro w
    refine .acceptWord (.onTrue (.pure fun w₁ hw₁ => hw₁)) (.onFalse ?_)
    refine .sees fun _ => .sees fun _ => .ite .expected ?_
    refine .bind hsub fun x => .bind takes_optional fun _ => ?_
    refine .within trivial (ih (hsub.of_le (Nat.le_succ fuel))) fun xs => ?_
    exact .pure fun w₁ hw₁ => hw₁

private theorem takes_concatParts (hsub : Takes fuel sub fun x => [.node (.expr x)]) :
    Takes fuel (concatParts sub fuel) fun xs =>
      listed [] xs ++ [Piece.optional (.keyword .MKAY)] := by
  induction fuel with
  | zero => exact takes_zero
  | succ fuel ih =>
    intro w
    refine .bind hsub fun x => .bind takes_optional fun _ => ?_
    have hmore : From (fuel + 1) w ([Piece.node (.expr x)] ++ [Piece.optional (.keyword .AN)])
        (concatParts sub fuel >>= fun xs => pure (x :: xs)) fun xs w₁ =>
          w.Reads (listed [] xs ++ [Piece.optional (.keyword .MKAY)]) w₁ :=
      .within trivial (ih (hsub.of_le (Nat.le_succ fuel))) fun xs => .pure fun w₁ hw₁ => hw₁
    refine .ite hmore (.accept (fun _ _ hkind => Grammar.fits_optional hkind) ?_ (.onFalse ?_))
    · exact .onTrue (.pure fun w₁ hw₁ => hw₁)
    · exact .sees fun _ => .sees fun _ => .sees fun _ =>
        .ite (.leaveOut (.pure fun w₁ hw₁ => hw₁)) hmore

private theorem takes_callArgs (hsub : Takes fuel sub fun x => [.node (.expr x)]) :
    Takes fuel (callArgs sub fuel) (listed [.YR]) := by
  induction fuel with
  | zero => exact takes_zero
  | succ fuel ih =>
    intro w
    refine .bind takes_expectWord fun _ => .bind hsub fun x => .bind takes_optional fun _ => ?_
    refine .ite ?_ (.pure fun w₁ hw₁ => hw₁)
    exact .within trivial (ih (hsub.of_le (Nat.le_succ fuel))) fun xs => .pure fun w₁ hw₁ => hw₁

private theorem takes_listElems (hsub : Takes fuel sub fun x => [.node (.expr x)]) :
    Takes fuel (listElems sub fuel) (listed []) := by
  induction fuel with
  | zero => exact takes_zero
  | succ fuel ih =>
    intro w
    refine .sees fun _ => .ite (.pure fun w₁ hw₁ => hw₁) ?_
    refine .bind hsub fun x => .bind takes_optional fun _ => ?_
    refine .ite ?_ (.pure fun w₁ hw₁ => hw₁)
    exact .within trivial (ih (hsub.of_le (Nat.le_succ fuel))) fun xs => .pure fun w₁ hw₁ => hw₁

end Lists

private theorem takes_wordExpr {k : Keyword} (hsub : Takes n sub fun x => [.node (.expr x)])
    (hkind : w₀.current.kind = .keyword k) :
    From (n + 1) w₀ [] (wordExpr sub n w₀.current k) (YieldsExpr w₀) := by
  have hword {k : Keyword} {x : Expr} (hkind : w₀.current.kind = .keyword k)
      (hparts : Grammar.exprParts x = words [k]) (hspan : x.span = w₀.current.span) :
      From (n + 1) w₀ [] (advance >>= fun _ => pure x) (YieldsExpr w₀) :=
    .leafWord hkind trivial hparts hspan
  rw [wordExpr.eq_def]
  split
  case h_1 => exact hword hkind rfl rfl
  case h_2 => exact hword hkind rfl rfl
  case h_3 => exact hword hkind rfl rfl
  case h_4 => exact hword hkind rfl rfl
  case h_5 =>
    refine .startView ?_
    split
    · rename_i hnext
      exact .firstWords hkind (eq_of_beq hnext) (takes_looseOperands hsub trivial rfl)
    · exact .firstWord hkind (.bind takes_expectWord fun _ => takes_operands hsub trivial rfl)
  case h_6 => exact .firstWord hkind (takes_looseOperands hsub trivial rfl)
  case h_7 =>
    refine .firstWord hkind (.within trivial hsub fun x => ?_)
    exact .expr trivial (fun _ => rfl) (fun _ => rfl)
  case h_8 =>
    refine .firstWord hkind (.bind takes_expectWord fun _ => .within trivial hsub fun x => ?_)
    exact .expr trivial (fun _ => rfl) (fun _ => rfl)
  case h_9 =>
    refine .firstWord hkind (.bind takes_expectWord fun _ => ?_)
    refine .within trivial (takes_untilMkay hsub) fun xs => ?_
    exact .expr trivial (fun _ => rfl) (fun _ => rfl)
  case h_10 =>
    refine .firstWord hkind (.bind takes_expectWord fun _ => ?_)
    refine .within trivial (takes_untilMkay hsub) fun xs => ?_
    exact .expr trivial (fun _ => rfl) (fun _ => rfl)
  case h_11 =>
    refine .firstWord hkind (.within trivial (takes_concatParts hsub) fun xs => ?_)
    exact .expr trivial (fun _ => rfl) (fun _ => rfl)
  case h_12 =>
    refine .firstWord hkind (.within trivial hsub fun x => .bind takes_optional fun _ => ?_)
    refine .bind takes_typeName fun t => ?_
    exact .expr trivial (fun _ => rfl) (fun _ => rfl)
  case h_13 =>
    refine .bind takes_expectWords fun _ => .bind takes_ident fun id => ?_
    have hrest (xs : List Expr) : From (n + 1) w₀ (words [.I, .IZ] ++ [Piece.node (.name id)] ++
        listed [.YR] xs) (do
          expectWord .MKAY
          return .call (← spanFrom w₀.current.span) id xs) (YieldsExpr w₀) :=
      .bind takes_expectWord fun _ =>
        .expr trivial (fun _ => rfl) (fun _ => rfl)
    exact .sees fun _ => .ite (.within trivial (takes_callArgs hsub) hrest) (hrest [])
  case h_14 =>
    have hrest (xs : List Expr) : From (n + 1) w₀ (words [.BUKKIT] ++
        [Piece.optional (.keyword .OF)] ++ listed [] xs ++ [Piece.optional (.keyword .MKAY)])
        (do return .list (← spanFrom w₀.current.span) xs) (YieldsExpr w₀) :=
      .expr trivial (fun _ => rfl) (fun _ => rfl)
    refine .firstWord hkind (.accept (fun _ _ hkind => Grammar.fits_optional hkind) ?_ ?_)
    · exact .onTrue (.within trivial (takes_listElems hsub) fun xs =>
        .bind takes_expectOptional fun _ => hrest xs)
    · exact .onFalse (.leaveOut (.leaveOut (hrest [])))
  case h_15 =>
    refine .firstWord hkind (.acceptWord (.onTrue ?_) (.onFalse (.acceptWord (.onTrue ?_) ?_)))
    · refine .bind takes_expectWord fun _ => .within trivial hsub fun x => ?_
      exact .expr trivial (fun _ => rfl) (fun _ => rfl)
    · refine .bind takes_expectWord fun _ => .within trivial hsub fun x => ?_
      exact .expr trivial (fun _ => rfl) (fun _ => rfl)
    · refine .onFalse (.within trivial hsub fun i => .bind takes_expectWord fun _ => ?_)
      refine .within trivial hsub fun x => ?_
      exact .expr trivial (fun _ => rfl) (fun _ => rfl)
  case h_16 =>
    split
    · rename_i op hop
      have hwords : words op.words = words [k, .OF] := by rw [words_of_binaryOfWord? hop]
      exact .firstWord hkind (.bind takes_expectWord fun _ => takes_operands hsub trivial hwords)
    · exact .expected

private theorem takes_exprForm (hsub : Takes n sub fun x => [.node (.expr x)]) :
    Takes (n + 1) (exprForm sub n) fun x => [.node (.expr x)] := by
  intro w
  refine .start ?_
  split
  case h_1 digits hlexeme => exact takes_number (congrArg Lexeme.kind hlexeme)
  case h_2 text hlexeme =>
    have hkind : w.current.kind = .string := congrArg Lexeme.kind hlexeme
    refine .leaf hkind (by rintro ⟨⟩) ?_
    exact Grammar.fits_node trivial rfl (Grammar.fits_kind hkind) rfl
  case h_3 text insertions hne hlexeme =>
    have hkind : w.current.kind = .interpolated := by
      cases insertions with
      | nil => exact (hne rfl).elim
      | cons i is => exact congrArg Lexeme.kind hlexeme
    have hspans : ((insertions.map spliceOf).map Splice.name).map Ident.span =
        w.current.insertions.map Insertion.span := by
      rw [Token.insertions, hlexeme, List.map_map, List.map_map]
      rfl
    refine .leaf hkind (by rintro ⟨⟩) ?_
    exact Grammar.fits_node trivial rfl (Grammar.fits_inside hkind hspans) rfl
  case h_4 name hlexeme =>
    have hkind : w.current.kind = .identifier := congrArg Lexeme.kind hlexeme
    refine .leaf hkind (by rintro ⟨⟩) (Grammar.fits_node trivial rfl ?_ rfl)
    exact Grammar.fits_node trivial rfl (Grammar.fits_token (hkind ▸ List.mem_cons_self)) rfl
  case h_5 k spelling hlexeme => exact takes_wordExpr hsub (congrArg Lexeme.kind hlexeme)
  case h_6 => exact .expected

theorem takes_expr (n : Nat) : Takes n (expr n) fun x => [.node (.expr x)] := by
  induction n with
  | zero => exact takes_zero
  | succ n ih => exact takes_exprForm ih

/-- What is read is a statement. -/
abbrev YieldsStmt (w₀ : Window) (s : Stmt) (w : Window) : Prop :=
  w₀.Reads [.node (.stmt s)] w

variable {block : List Keyword → Parser Block}

theorem takes_params : Takes fuel (params fuel) Grammar.params := by
  induction fuel with
  | zero => exact takes_zero
  | succ fuel ih =>
    intro w
    refine .bind takes_expectWord fun _ => .bind takes_ident fun id => ?_
    refine .bind takes_optional fun _ => .ite ?_ (.pure fun w₁ hw₁ => hw₁)
    exact .within trivial ih fun ids => .pure fun w₁ hw₁ => hw₁

theorem takes_arms {word : Keyword} {ends : List Keyword}
    (hsub : Takes fuel sub fun x => [.node (.expr x)])
    (hblock : TakesBlock fuel (block ends)) :
    Takes fuel (arms sub block word ends fuel) (Grammar.armParts word) := by
  induction fuel with
  | zero => exact takes_zero
  | succ fuel ih =>
    intro w
    refine .acceptWord (.onTrue ?_) (.onFalse (.pure fun w₁ hw₁ => hw₁))
    refine .bind hsub fun test => .body (hblock.of_le (Nat.le_succ fuel)) fun b => ?_
    refine .within trivial (ih (hsub.of_le (Nat.le_succ fuel)) (hblock.of_le (Nat.le_succ fuel)))
      fun arms => .pure fun w₁ hw₁ => ?_
    obtain ⟨b, ss⟩ := b
    exact hw₁

theorem takes_printArgs (hsub : Takes fuel sub fun x => [.node (.expr x)]) :
    Takes fuel (printArgs sub fuel) (listed []) := by
  induction fuel with
  | zero => exact takes_zero
  | succ fuel ih =>
    intro w
    refine .bind hsub fun x => .bind takes_optional fun _ => ?_
    have hmore : From (fuel + 1) w ([Piece.node (.expr x)] ++ [Piece.optional (.keyword .AN)])
        (printArgs sub fuel >>= fun xs => pure (x :: xs)) fun xs w₁ =>
          w.Reads (listed [] xs) w₁ :=
      .within trivial (ih (hsub.of_le (Nat.le_succ fuel))) fun xs => .pure fun w₁ hw₁ => hw₁
    refine .ite hmore (.sees fun _ => .sees fun _ => .sees fun _ => .ite ?_ hmore)
    exact .pure fun w₁ hw₁ => hw₁

theorem takes_loopUpdate (hsub : Takes n sub fun x => [.node (.expr x)]) :
    Takes n (loopUpdate sub) fun u => Grammar.updateParts (some u) := by
  intro w
  have hrest (change : LoopChange) : From n w (Grammar.changeParts change) (do
      expectWord .YR
      let v ← ident
      if ← accept .TIL then return ⟨change, v, .untilTrue (← sub)⟩
      else if ← accept .WILE then return ⟨change, v, .whileTrue (← sub)⟩
      else return ⟨change, v, .forever⟩) fun u w₁ => w.Reads (Grammar.updateParts (some u)) w₁ := by
    refine .bind takes_expectWord fun _ => .bind takes_ident fun v => ?_
    have htest (test : LoopTest) (w₁ : Window) (hw₁ : w.Reads (Grammar.changeParts change ++
        words [.YR] ++ [Piece.node (.name v)] ++ Grammar.testParts test) w₁) :
        w.Reads (Grammar.updateParts (some ⟨change, v, test⟩)) w₁ := hw₁
    refine .acceptWord (.onTrue (.bind hsub fun x => .pure fun w₁ hw₁ => htest _ w₁ ?_))
      (.onFalse (.acceptWord (.onTrue (.bind hsub fun x => .pure fun w₁ hw₁ => htest _ w₁ ?_))
        (.onFalse (.pure fun w₁ hw₁ => htest _ w₁ ?_))))
    · rwa [List.append_assoc] at hw₁
    · rwa [List.append_assoc] at hw₁
    · rwa [Grammar.testParts, List.append_nil]
  refine .start ?_
  split
  · rename_i hlexeme
    exact .firstWord (congrArg Lexeme.kind hlexeme) (hrest .up)
  · rename_i hlexeme
    exact .firstWord (congrArg Lexeme.kind hlexeme) (hrest .down)
  · exact .bind takes_ident fun id => hrest (.apply id)
  · exact .expected

theorem takes_exprStmt (hsub : Takes n sub fun x => [.node (.expr x)]) :
    From n w₀ [] (exprStmt sub w₀.current.span) (YieldsStmt w₀) :=
  .bind hsub fun _ => .stmt trivial (fun _ => rfl) fun _ => rfl

theorem takes_declaration (hsub : Takes n sub fun x => [.node (.expr x)]) :
    From n w₀ [] (declaration sub w₀.current.span) (YieldsStmt w₀) := by
  refine .bind takes_expectWords fun _ => .bind takes_ident fun id => ?_
  have hrest (initial : Initial) : From n w₀ (words [.I, .HAS, .A] ++ [Piece.node (.name id)] ++
      Grammar.initialParts initial)
      (do return .declare (← spanFrom w₀.current.span) id initial) (YieldsStmt w₀) :=
    .stmt trivial (fun _ => rfl) fun _ => rfl
  refine .acceptWord (.onTrue (.acceptWord (.onTrue ?_) (.onFalse ?_))) (.onFalse (hrest .absent))
  · exact .map takes_typeName fun t => hrest (.typed t)
  · exact .map hsub fun x => hrest (.value x)

theorem takes_assignment (hsub : Takes n sub fun x => [.node (.expr x)]) :
    From n w₀ [] (assignment sub w₀.current.span) (YieldsStmt w₀) :=
  .bind takes_target fun _ => .bind takes_expectWord fun _ => .bind hsub fun _ =>
    .stmt trivial (fun _ => rfl) fun _ => rfl

theorem takes_castStmt : From n w₀ [] (castStmt w₀.current.span) (YieldsStmt w₀) :=
  .bind takes_ident fun _ => .bind takes_expectWords fun _ => .bind takes_typeName fun _ =>
    .stmt trivial (fun _ => rfl) fun _ => rfl

theorem takes_loadStmt : From n w₀ [] (loadStmt w₀.current.span) (YieldsStmt w₀) :=
  .bind takes_expectWords fun _ => .bind takes_ident fun _ =>
    .bind (takes_expect (by rintro ⟨⟩)) fun _ => .stmt trivial (fun _ => rfl) fun _ => rfl

theorem takes_definition (hblock : ∀ ends, TakesBlock n (block ends)) :
    From (n + 1) w₀ [] (definition block n w₀.current.span) (YieldsStmt w₀) := by
  refine .bind takes_expectWords fun _ => .bind takes_ident fun id => ?_
  have hrest (ids : List Ident) : From (n + 1) w₀ (words [.HOW, .IZ, .I] ++
      [Piece.node (.name id)] ++ Grammar.params ids) (do
        expectBreak
        let body ← block [.IF]
        expectWords [.IF, .U, .SAY, .SO]
        return .define (← spanFrom w₀.current.span) id ids body) (YieldsStmt w₀) :=
    .body (hblock _) fun b => .bind takes_expectWords fun _ =>
      .stmt trivial (fun _ => rfl) fun _ => rfl
  exact .sees fun _ => .ite (.within trivial takes_params hrest) (hrest [])

theorem takes_switchStmt (hsub : Takes (n + 1) sub fun x => [.node (.expr x)])
    (hblock : ∀ ends, TakesBlock n (block ends)) :
    From (n + 1) w₀ [] (switchStmt sub block n w₀.current.span) (YieldsStmt w₀) := by
  refine .bind takes_expectWord fun _ => .bind (takes_expect (by rintro ⟨⟩)) fun _ => ?_
  refine .bind takes_expectBreak fun _ => ?_
  refine .within trivial (takes_arms (hsub.of_le (Nat.le_succ n)) (hblock _)) fun arms => ?_
  refine .optionalBody (hblock _) fun otherwise => .bind takes_expectWord fun _ => ?_
  exact .stmt trivial (fun _ => rfl) fun _ => rfl

theorem takes_branchStmt (hsub : Takes (n + 1) sub fun x => [.node (.expr x)])
    (hblock : ∀ ends, TakesBlock n (block ends)) :
    From (n + 1) w₀ [] (branchStmt sub block n w₀.current.span) (YieldsStmt w₀) := by
  refine .bind takes_expectWords fun _ => .bind (takes_expect (by rintro ⟨⟩)) fun _ => ?_
  refine .bind takes_expectBreak fun _ => .optionalBody₂ (hblock _) fun yes => ?_
  refine .within trivial (takes_arms (hsub.of_le (Nat.le_succ n)) (hblock _)) fun arms => ?_
  refine .optionalBody₂ (hblock _) fun no => .bind takes_expectWord fun _ => ?_
  exact .stmt trivial (fun _ => rfl) fun _ => rfl

private theorem takes_loopStmt (hsub : Takes (n + 1) sub fun x => [.node (.expr x)])
    (hblock : ∀ ends, TakesBlock n (block ends)) :
    From (n + 1) w₀ [] (loopStmt sub block w₀.current.span) (YieldsStmt w₀) := by
  refine .bind takes_expectWords fun _ => .bind takes_ident fun label => ?_
  have hrest (update : Option LoopUpdate) : From (n + 1) w₀ (words [.IM, .IN, .YR] ++
      [Piece.node (.name label)] ++ Grammar.updateParts update) (do
        expectBreak
        let body ← block [.IM]
        expectWords [.IM, .OUTTA, .YR]
        let close ← ident
        if close.name == label.name then
          return .loop (← spanFrom w₀.current.span) label close update body
        else
          throwThe Diagnostic (((ParseFault.labelMismatch label.name close.name).toDiagnostic
            close.span).annotate label.span ("loop " ++ label.name ++ " opened here")))
        (YieldsStmt w₀) := by
    refine .body (hblock _) fun b => .bind takes_expectWords fun _ => .bind takes_ident fun close => ?_
    refine .ite (.stmt trivial (fun _ => rfl) fun _ => rfl) ?_
    exact .throwAt (by rintro ⟨⟩) rfl
  exact .sees fun _ => .ite (hrest none) (.map (takes_loopUpdate hsub) fun u => hrest (some u))

private theorem takes_printStmt (hkind : w₀.current.kind = .keyword .VISIBLE)
    (hsub : Takes (n + 1) sub fun x => [.node (.expr x)]) :
    From (n + 1) w₀ [] (printStmt sub n w₀.current.span) (YieldsStmt w₀) := by
  have hargs := takes_printArgs (hsub.of_le (Nat.le_succ n))
  refine .firstWord hkind (.within trivial hargs fun xs => ?_)
  refine .seesKind (by rintro ⟨⟩) (if_pos rfl) ?_ (.onFalse ?_)
  · exact .stmt trivial (fun _ => rfl) fun _ => rfl
  · refine .stmt trivial (fun _ => ?_) fun _ => rfl
    exact List.append_nil _

private theorem takes_readStmt (hkind : w₀.current.kind = .keyword .GIMMEH) :
    From n w₀ [] (readStmt w₀.current.span) (YieldsStmt w₀) :=
  .firstWord hkind (.bind takes_target fun _ => .stmt trivial (fun _ => rfl) fun _ => rfl)

private theorem takes_putStmt (hkind : w₀.current.kind = .keyword .PUT)
    (hsub : Takes n sub fun x => [.node (.expr x)]) :
    From n w₀ [] (putStmt sub w₀.current.span) (YieldsStmt w₀) := by
  refine .firstWord hkind (.bind hsub fun x => .bind takes_expectWords fun _ => ?_)
  refine .bind takes_ident fun id => .acceptWord (.onTrue ?_) (.onFalse ?_)
  · exact .bind hsub fun i => .stmt trivial (fun _ => rfl) fun _ => rfl
  · exact .stmt trivial (fun _ => rfl) fun _ => rfl

private theorem takes_returnStmt (hsub : Takes n sub fun x => [.node (.expr x)]) :
    From n w₀ [] (returnStmt sub w₀.current.span) (YieldsStmt w₀) :=
  .bind takes_expectWords fun _ => .bind hsub fun _ => .stmt trivial (fun _ => rfl) fun _ => rfl

private theorem takes_stmtForm (hsub : Takes (n + 1) sub fun x => [.node (.expr x)])
    (hblock : ∀ ends, TakesBlock n (block ends)) :
    Takes (n + 1) (stmtForm sub block n) fun s => [.node (.stmt s)] := by
  intro w
  refine .start (.get fun next => ?_)
  have hexpr : From (n + 1) w [] (exprStmt sub w.current.span) (YieldsStmt w) :=
    takes_exprStmt hsub
  have hassign : From (n + 1) w [] (assignment sub w.current.span) (YieldsStmt w) :=
    takes_assignment hsub
  split
  · exact .ite hassign (.ite takes_castStmt hexpr)
  · rename_i k spelling hlexeme
    have hkind : w.current.kind = .keyword k := congrArg Lexeme.kind hlexeme
    split
    case h_1 => exact .ite hexpr (takes_declaration hsub)
    case h_2 => exact .ite hassign hexpr
    case h_3 => exact takes_loadStmt
    case h_4 => exact takes_definition hblock
    case h_5 => exact takes_switchStmt hsub hblock
    case h_6 => exact takes_branchStmt hsub hblock
    case h_7 => exact .leafWord hkind trivial rfl rfl
    case h_8 => exact takes_loopStmt hsub hblock
    case h_9 => exact takes_returnStmt hsub
    case h_10 => exact takes_printStmt hkind hsub
    case h_11 => exact takes_readStmt hkind
    case h_12 => exact takes_putStmt hkind hsub
    case h_13 => exact hexpr
  · exact hexpr

/-- Statements on lines of their own are a block that runs from the first of them to the last. -/
private theorem reads_block {w : Window} {ss : List Stmt} (h : w₀.Reads (Grammar.lines ss) w) :
    w₀.Reads [.node (.block ⟨⟨w₀.current.span.start, match ss.getLast? with
      | some s => s.span.stop
      | none => w₀.current.span.start, w₀.current.span.file⟩, ss⟩)] w := by
  obtain ⟨ts, hts, hpasses⟩ := h
  refine ⟨ts ++ [], .node hts ?_ (.nil _), (List.append_nil ts).symm ▸ hpasses⟩
  have hhead := hpasses.head
  cases ss with
  | nil =>
    cases hts
    rw [hhead]
    rfl
  | cons s ss =>
    cases hts with
    | @node _ _ us vs _ _ hspan _ =>
      obtain ⟨first, last, hfirst, -, hspan⟩ := hspan
      have hcurrent : w₀.current = first := by
        rw [hhead, List.headD_eq_head?_getD, List.head?_append, hfirst]
        rfl
      have hs : s.span = ⟨first.span.start, last.span.stop, first.span.file⟩ := hspan
      rw [List.getLast?_cons, hcurrent]
      dsimp only [Node.SpansOver, Block.stmts, Block.span]
      rw [hs]

theorem takesBlock_blockOf {stmts : Parser (List Stmt)}
    (h : Takes n stmts fun ss => .breaks :: Grammar.lines ss) : TakesBlock n (blockOf stmts) := by
  intro w hw hn hkind
  have hrun : From n w [] (blockOf stmts) fun b w₁ => w.Reads [.node (.block b)] w₁ :=
    .start (.bind h fun ss => .pure fun w₁ hw₁ => reads_block (hw₁.of_breaks hkind))
  exact hrun hw hn w (.refl w)

private theorem takes_stmts (hsub : Takes fuel sub fun x => [.node (.expr x)]) (ends : List Keyword) :
    Takes fuel (stmts sub fuel ends) fun ss => .breaks :: Grammar.lines ss := by
  induction fuel generalizing ends with
  | zero => exact takes_zero
  | succ fuel ih =>
    intro w
    have hrest := ih (hsub.of_le (Nat.le_succ fuel))
    refine .bind takes_skipBreaks fun _ => .atEnd fun _ => .ite (.pure fun w₁ hw₁ => hw₁) ?_
    refine .bind (takes_stmtForm hsub fun ends => takesBlock_blockOf (hrest ends)) fun s => ?_
    refine .sees fun _ => .atEnd fun _ => .ite ?_ .expected
    exact .within trivial (hrest ends) fun ss => .pure fun w₁ hw₁ => hw₁

/-- Behind a program the end of the text is in view. -/
private theorem closed {p : Program} {good : Program → Window → Prop}
    (h : ∀ w, w₀.Reads ps w → w.current.kind = .endOfInput → good p w) :
    From n w₀ ps (program.closed >>= fun _ => pure p) good := by
  intro hw hn w hps
  have hrun : (program.closed >>= fun _ => pure p) w = ((if (w.current.kind == .endOfInput) = true
      then pure () else expected TokenKind.endOfInput.name) >>= fun _ => pure p) w := rfl
  rw [hrun]
  split
  · rename_i hkind
    exact h w hps (eq_of_beq hkind)
  · exact From.expected hw hn w hps

/-- A whole program, the line breaks around it, and nothing else. -/
private theorem takes_program (hw : w₀.Sound) (hn : w₀.items.length ≤ fuel) :
    Ends w₀.Stops (program fuel w₀) fun r =>
      w₀.Reads [.breaks, .node (.program r.1), .breaks] r.2 ∧
        r.2.current.kind = .endOfInput := by
  have hbody : TakesBlock fuel (blockOf (stmts (expr fuel) fuel [.KTHXBYE])) :=
    takesBlock_blockOf (takes_stmts (takes_expr fuel) _)
  have hrun : From (fuel + 1) w₀ [] (program fuel) fun p w =>
      w₀.Reads [.breaks, .node (.program p), .breaks] w ∧ w.current.kind = .endOfInput := by
    refine .bind takes_skipBreaks fun _ => .nested fun w hw => .start ?_
    refine .bind takes_expectWord fun _ => .bind takes_digits fun major => ?_
    refine .bind (takes_expect (by rintro ⟨⟩)) fun _ => .bind takes_digits fun minor => ?_
    refine .body hbody fun b => .bind takes_expectWord fun _ => ?_
    refine .node (m := fun s => .program ⟨s, major ++ "." ++ minor, b⟩) trivial
      (fun _ => trivial) (fun _ => rfl) (fun _ => rfl) fun s => ?_
    refine .bind takes_skipBreaks fun _ => closed fun w' hw' hkind => ?_
    exact ⟨hw.trans hw', hkind⟩
  exact hrun hw (Nat.le_succ_of_le hn) w₀ (.refl w₀)

end Parser

section Source

open Grammar (Piece Node)
open Diagnostic (Ends)

variable {file : Int} {text : Text}

private theorem Token.closed_items [CharNames] : Token.Closed (items file text) := by
  obtain ⟨calls, hrun, hitems⟩ := exists_items file text
  rw [hitems]
  exact .of_proper rfl fun t ht hkind => hrun.proper ht (Lexeme.eq_endOfInput hkind)

theorem Token.ordered_items [CharNames] : Token.Ordered 0 (items file text) := by
  obtain ⟨calls, hrun, hitems⟩ := exists_items file text
  rw [hitems]
  refine (hrun.ordered (Int.le_refl 0)).concat ?_ fun t ht => (hrun.within ht).1.2.2
  exact Int.natCast_nonneg _

/-- A view of all items of a text. -/
private theorem Window.sound_of_items [CharNames] {w : Window} (h : w.items = Token.items file text) :
    w.Sound where
  closed := h ▸ Token.closed_items
  ordered := ⟨0, h ▸ Token.ordered_items⟩
  tokens := fun _ ht => (Token.valid_items (h ▸ ht)).span.ordered

/-- The view at the start of a text is that of all its items. -/
private theorem Window.start?_ends {eof : Token} {items : List (Except Diagnostic Token)}
    (hne : items ≠ []) :
    Ends (Token.Stops items) (start? eof items) fun w => w.items = items := by
  rcases items with - | ⟨d | t, - | ⟨d' | u, rest⟩⟩
  · exact absurd rfl hne
  all_goals first | exact .inl rfl | exact rfl

/-- The tokens of a text are those of the program and line breaks around them, up to the end. -/
theorem Program.parse_ends [CharNames] (file : Int) (text : Text) :
    Ends (Token.Stops (Token.items file text)) (parse file text) fun p =>
      ∃ ts, Token.items file text = (ts ++ [Token.eof file text]).map .ok ∧
        Grammar.Reads [.breaks, .node (.program p), .breaks] ts (Token.eof file text) := by
  obtain ⟨calls, -, hitems⟩ := Token.exists_items file text
  have hne : Token.items file text ≠ [] := hitems ▸ List.append_ne_nil_of_right_ne_nil _ nofun
  refine (Window.start?_ends hne).bind fun w hw => ?_
  have hlength : w.items.length ≤ (Token.items file text).length + 1 := hw ▸ Nat.le_succ _
  have hrun := Parser.takes_program (Window.sound_of_items hw) hlength
  have hstops : w.Stops = Token.Stops (Token.items file text) := hw ▸ rfl
  rw [hstops] at hrun
  refine hrun.bind fun r hr => ?_
  obtain ⟨⟨ts, hts, hpasses⟩, hkind⟩ := hr
  have hclosed := (hpasses.sound (Window.sound_of_items hw)).closed
  rcases hclosed with ⟨-, hahead⟩ | ⟨hopen, -⟩
  · have heq : calls ++ [Except.ok (Token.eof file text)] =
        ts.map .ok ++ [Except.ok r.2.current] := by
      rw [← hitems, ← hw, hpasses.items, Window.items, hahead]
    have hcurrent : Token.eof file text = r.2.current :=
      Except.ok.inj (List.cons.inj (List.append_inj_right' heq rfl)).1
    refine ⟨ts, ?_, hcurrent ▸ hts⟩
    rw [hitems, heq, hcurrent, List.map_append]
    rfl
  · exact absurd hkind hopen

/-- Tokens of a text keep the variables inside them. -/
private theorem Grammar.sound_of_mem_items [CharNames] {t : Token} (h : .ok t ∈ Token.items file text) :
    Grammar.Sound file t := by
  have hvalid := Token.valid_items h
  obtain ⟨calls, hrun, hitems⟩ := Token.exists_items file text
  rw [hitems] at h
  refine ⟨hvalid.span.file, ?_, ?_⟩
  · rcases List.mem_append.1 h with h | h
    · obtain ⟨c, behind, -, hbetween⟩ := hrun.between h
      rw [hbetween.span]
      exact hbetween.insertions
    · cases List.mem_singleton.1 h
      exact Int.le_refl _
  · intro i hi
    have hlexeme := hvalid.lexeme
    rw [Token.insertions] at hi
    split at hi
    · rename_i heq
      rw [heq] at hlexeme
      exact (hlexeme.2.2 i hi).span.file
    · cases hi

/-- The spans of a program that is read mirror its tree: its tokens are those of the text up to line
breaks around them, every node has the span of the tokens that it is written with, and the children of
a node lie inside it, one behind another. -/
theorem Program.nested_of_parse [CharNames] {p : Program} (h : parse file text = .ok p) :
    ∃ ts, Token.items file text = (ts ++ [Token.eof file text]).map .ok ∧
      Grammar.Reads [.breaks, .node (.program p), .breaks] ts (Token.eof file text) ∧
      (Node.program p).Nested file := by
  have hends := parse_ends file text
  rw [h] at hends
  obtain ⟨ts, hitems, hts⟩ := hends
  have hmem (t : Token) (ht : t ∈ ts) : .ok t ∈ Token.items file text := by
    rw [hitems]
    exact List.mem_map_of_mem (List.mem_append_left _ ht)
  have hordered : Token.Ordered 0 (ts.map .ok ++ [Except.ok (Token.eof file text)]) := by
    have hall : Token.Ordered 0 (Token.items file text) := Token.ordered_items
    rwa [hitems, List.map_append] at hall
  obtain ⟨hi, hrow⟩ := hordered.row fun t ht => (Token.valid_items (hmem t ht)).span.ordered
  have hshut : Grammar.Shut [.breaks, .node (.program p), .breaks] := trivial
  obtain ⟨-, hnested⟩ := hts.nested hshut hrow fun t ht => Grammar.sound_of_mem_items (hmem t ht)
  exact ⟨ts, hitems, hts, hnested _ List.mem_cons_self⟩

/-- The first fault of a text is not one of the parser's, and all tokens in front of it start before
it. -/
private theorem Token.first_fault [CharNames] {d : Diagnostic}
    (h : (untilFault (items file text)).2 = some d) :
    d.kind ≠ .runtime ∧ ∀ t ∈ (untilFault (items file text)).1, t.span.start < d.span.start := by
  obtain ⟨calls, hrun, hitems⟩ := exists_items file text
  obtain ⟨rest, hrest⟩ := eq_append_of_untilFault h
  generalize (untilFault (items file text)).1 = ts at hrest ⊢
  rw [hitems] at hrest
  -- The text is closed by its end, so the fault is one of the items before.
  obtain ⟨rest, rfl⟩ : ∃ rest, calls = ts.map .ok ++ Except.error d :: rest := by
    rcases List.eq_nil_or_concat rest with rfl | ⟨rest, last, rfl⟩
    · cases (List.cons.inj (List.append_inj_right' hrest rfl)).1
    · rw [List.concat_eq_append, ← List.cons_append, ← List.append_assoc] at hrest
      exact ⟨rest, List.append_inj_left' hrest rfl⟩
  have hwithin (t : Token) (ht : t ∈ ts) := hrun.within (List.mem_append_left _ (List.mem_map_of_mem ht))
  refine ⟨?_, fun t ht => ?_⟩
  · obtain ⟨f, span, rfl⟩ := hrun.fault (List.mem_append_right _ List.mem_cons_self)
    cases f <;> nofun
  · have hstop := (hrun.ordered (Int.le_refl 0)).stop_le fun t ht => Int.le_of_lt (hwithin t ht).1.2.1
    exact Int.lt_of_lt_of_le (hwithin t ht).1.2.1 (hstop.2 t ht)

attribute [local instance] CharNames.common

/-- The body of a program runs from its first statement to its last. -/
theorem Program.nested_of_parse_lines : ∃ p,
    parse 0 "HAI 1.2\n\nVISIBLE SUM OF 1 AN 2!\nGTFO BTW done\n\nKTHXBYE\n" = .ok p ∧
      p.body.stmts.map Stmt.span = [⟨9, 31, 0⟩, ⟨32, 36, 0⟩] ∧ p.body.span = ⟨9, 36, 0⟩ ∧
      p.span = ⟨0, 54, 0⟩ ∧ (Node.program p).Nested 0 := by
  obtain ⟨p, hparse, hp⟩ : ∃ p,
      parse 0 "HAI 1.2\n\nVISIBLE SUM OF 1 AN 2!\nGTFO BTW done\n\nKTHXBYE\n" = .ok p ∧
        decide (p.body.stmts.map Stmt.span = [⟨9, 31, 0⟩, ⟨32, 36, 0⟩] ∧ p.body.span = ⟨9, 36, 0⟩ ∧
          p.span = ⟨0, 54, 0⟩) = true :=
    exists_parse _ (by decide +kernel)
  obtain ⟨hstmts, hbody, hspan⟩ := of_decide_eq_true hp
  obtain ⟨-, -, -, hnested⟩ := nested_of_parse hparse
  exact ⟨p, hparse, hstmts, hbody, hspan, hnested⟩

/-- Parsing ends with a program that all tokens of the text spell, or with one diagnostic: the first
fault of the text, or one that starts in front of it. The bound on the recursion is never reached. -/
theorem Program.parse_ok_or_first_fault [CharNames] (file : Int) (text : Text) :
    (∃ p ts, parse file text = .ok p ∧
      Token.items file text = (ts ++ [Token.eof file text]).map .ok ∧
      Grammar.Reads [.breaks, .node (.program p), .breaks] ts (Token.eof file text)) ∨
    ∃ d, parse file text = .error d ∧ (∀ span, d ≠ ParseFault.exhausted.toDiagnostic span) ∧
      ∀ f, (Token.untilFault (Token.items file text)).2 = some f →
        d = f ∨ d.span.start < f.span.start := by
  have hends := parse_ends file text
  cases hparse : parse file text with
  | ok p =>
    rw [hparse] at hends
    obtain ⟨ts, hitems, hts⟩ := hends
    exact .inl ⟨p, ts, rfl, hitems, hts⟩
  | error d =>
    rw [hparse] at hends
    refine .inr ⟨d, rfl, ?_, fun f hf => ?_⟩
    · rintro span rfl
      rcases hends with hfault | ⟨hkind, -⟩
      · exact (Token.first_fault hfault).1 rfl
      · exact hkind rfl
    · rcases hends with hfault | ⟨-, t, ht, hstart⟩
      · exact .inl (Option.some.inj (hfault.symm.trans hf))
      · exact .inr (hstart ▸ (Token.first_fault hf).2 t ht)

end Source

end LolToolchain
