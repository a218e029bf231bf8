import LolToolchain.Program.Simplify
import Mathlib.Logic.Basic

/-!
What folding a comparison does, and that it is done once and for all: the ordering that takes the
place of a comparison is none that could be folded again, and its operands were folded before it.
-/
namespace LolToolchain

namespace Expr

/-- The operator that takes the greater or the lesser. -/
def Extreme.op (m : Extreme) : BinaryOp :=
  if m.isGreater then .max else .min

/-- The ordering that a comparison with an extreme comes down to. -/
def Extreme.ordering (m : Extreme) (span : Span) (op : BinaryOp) (matched rest : Expr) : Expr :=
  if op == .equal then .binary span (if m.isGreater then .ge else .le) matched rest
  else .binary span (if m.isGreater then .gt else .lt) rest matched

/-- When a comparison is folded: one of its sides is the extreme `m`, the other side is found again as
the operand `matched` of `m`, and may stand for a number and makes no call. -/
structure Folds (op : BinaryOp) (left right : Expr) (m : Extreme) (other matched rest : Expr) :
    Prop where
  operator : op = .equal ∨ op = .notEqual
  sides : extremeAndOther? left right = some (m, other)
  noCall : other.hasCall = false
  numeric : other.notNumeric = false
  split : m.split? other = some (matched, rest)

variable {span : Span} {op : BinaryOp} {left right other matched rest x : Expr} {m : Extreme}

theorem Folds.fold_eq (h : Folds op left right m other matched rest) :
    foldComparison span op left right = m.ordering span op matched rest := by
  obtain ⟨hop, hsides, hcall, hnumeric, hsplit⟩ := h
  dsimp only [foldComparison]
  rw [hsides]
  dsimp only
  rw [hcall, hnumeric, hsplit]
  rcases hop with rfl | rfl <;> rfl

/-- A comparison is kept as it is, or it is folded. -/
theorem foldComparison_cases (span : Span) (op : BinaryOp) (left right : Expr) :
    foldComparison span op left right = .binary span op left right ∨
      ∃ m other matched rest, Folds op left right m other matched rest := by
  dsimp only [foldComparison]
  split
  · exact .inl rfl
  · rename_i hop
    split
    · exact .inl rfl
    · rename_i m other hsides
      split
      · exact .inl rfl
      · rename_i hother
        split
        · exact .inl rfl
        · rename_i matched rest hsplit
          refine .inr ⟨m, other, matched, rest, ?_, hsides, ?_, ?_, hsplit⟩
          · simpa [or_iff_not_imp_left] using hop
          · exact (Bool.or_eq_false_iff.1 (Bool.eq_false_iff.2 hother)).1
          · exact (Bool.or_eq_false_iff.1 (Bool.eq_false_iff.2 hother)).2

private theorem eq_of_extreme? (h : x.extreme? = some m) : ∃ s, x = .binary s m.op m.left m.right := by
  cases x with
  | binary s op a b =>
    cases op with
    | max | min =>
      cases h
      exact ⟨s, rfl⟩
    | _ => cases h
  | _ => cases h

/-- The extreme is one of the sides, and the other side is the other one. -/
theorem Folds.sides_eq (h : Folds op left right m other matched rest) :
    ∃ s, (left = .binary s m.op m.left m.right ∧ right = other) ∨
      (right = .binary s m.op m.left m.right ∧ left = other) := by
  have hsides := h.sides
  rw [extremeAndOther?] at hsides
  cases hleft : left.extreme? with
  | some found =>
    rw [hleft] at hsides
    cases hsides
    obtain ⟨s, hs⟩ := eq_of_extreme? hleft
    exact ⟨s, .inl ⟨hs, rfl⟩⟩
  | none =>
    rw [hleft] at hsides
    obtain ⟨found, hright, heq⟩ := Option.map_eq_some_iff.1 hsides
    cases heq
    obtain ⟨s, hs⟩ := eq_of_extreme? hright
    exact ⟨s, .inr ⟨hs, rfl⟩⟩

/-- The operand that is found again and the one that is not are the operands of the extreme. -/
theorem Folds.operands_eq (h : Folds op left right m other matched rest) :
    matched.same other = true ∧
      ((m.left = matched ∧ m.right = rest) ∨ (m.left = rest ∧ m.right = matched)) := by
  have hsplit := h.split
  rw [Extreme.split?] at hsplit
  split at hsplit
  · rename_i hsame
    cases hsplit
    exact ⟨hsame, .inl ⟨rfl, rfl⟩⟩
  · split at hsplit
    · rename_i hsame
      cases hsplit
      exact ⟨hsame, .inr ⟨rfl, rfl⟩⟩
    · cases hsplit

/-- An extreme is never folded, so its operands are as they would be left. -/
private theorem simplify_operands
    (h : (Expr.binary span m.op left right).simplify = .binary span m.op left right) :
    left.simplify = left ∧ right.simplify = right := by
  have hkept : (Expr.binary span m.op left right).simplify =
      .binary span m.op left.simplify right.simplify := by
    rw [simplify, Extreme.op]
    split <;> rfl
  rw [hkept] at h
  exact ⟨(Expr.binary.inj h).2.2.1, (Expr.binary.inj h).2.2.2⟩

/-- An ordering is kept. -/
private theorem Extreme.simplify_ordering (hmatched : matched.simplify = matched)
    (hrest : rest.simplify = rest) :
    (m.ordering span op matched rest).simplify = m.ordering span op matched rest := by
  rw [ordering]
  repeat' split
  all_goals
    rw [simplify, hmatched, hrest]
    rfl

private theorem simplify_foldComparison (hleft : left.simplify = left) (hright : right.simplify = right) :
    (foldComparison span op left right).simplify = foldComparison span op left right := by
  rcases foldComparison_cases span op left right with hkept | ⟨m, other, matched, rest, hfolds⟩
  · rw [hkept, simplify, hleft, hright, hkept]
  · have hoperands : m.left.simplify = m.left ∧ m.right.simplify = m.right := by
      obtain ⟨s, ⟨rfl, -⟩ | ⟨rfl, -⟩⟩ := hfolds.sides_eq
      · exact simplify_operands hleft
      · exact simplify_operands hright
    rw [hfolds.fold_eq]
    obtain ⟨-, ⟨rfl, rfl⟩ | ⟨rfl, rfl⟩⟩ := hfolds.operands_eq
    · exact m.simplify_ordering hoperands.1 hoperands.2
    · exact m.simplify_ordering hoperands.2 hoperands.1

mutual

theorem simplify_simplify : ∀ x : Expr, x.simplify.simplify = x.simplify
  | .int _ _ | .float _ _ | .string _ _ | .interp _ _ _ | .bool _ _ | .null _ | .it _
  | .var _ _ => rfl
  | .list s xs => congrArg (list s) (simplifyAll_simplifyAll xs)
  | .call s id xs => congrArg (call s id) (simplifyAll_simplifyAll xs)
  | .concat s xs => congrArg (concat s) (simplifyAll_simplifyAll xs)
  | .cast s x t => congrArg (cast s · t) (simplify_simplify x)
  | .nary s op xs => congrArg (nary s op) (simplifyAll_simplifyAll xs)
  | .unary s op x => congrArg (unary s op) (simplify_simplify x)
  | .pickAt s i x => congrArg₂ (pickAt s) (simplify_simplify i) (simplify_simplify x)
  | .pickFront s x => congrArg (pickFront s) (simplify_simplify x)
  | .pickBack s x => congrArg (pickBack s) (simplify_simplify x)
  | .binary _ _ x y => simplify_foldComparison (simplify_simplify x) (simplify_simplify y)

theorem simplifyAll_simplifyAll : ∀ xs : List Expr, simplifyAll (simplifyAll xs) = simplifyAll xs
  | [] => rfl
  | x :: xs => congrArg₂ List.cons (simplify_simplify x) (simplifyAll_simplifyAll xs)

end

end Expr

private theorem Initial.simplify_simplify (i : Initial) : i.simplify.simplify = i.simplify := by
  cases i with
  | value e => exact congrArg value e.simplify_simplify
  | absent | typed t => rfl

private theorem LoopUpdate.simplify_simplify (u : LoopUpdate) : u.simplify.simplify = u.simplify := by
  obtain ⟨change, counter, test⟩ := u
  cases test with
  | forever => rfl
  | untilTrue e => exact congrArg (fun e => mk change counter (.untilTrue e)) e.simplify_simplify
  | whileTrue e => exact congrArg (fun e => mk change counter (.whileTrue e)) e.simplify_simplify

mutual

theorem Stmt.simplify_simplify : ∀ s : Stmt, s.simplify.simplify = s.simplify
  | .assign s id x => congrArg (Stmt.assign s id) x.simplify_simplify
  | .append s id x => congrArg (Stmt.append s id) x.simplify_simplify
  | .declare s id i => congrArg (Stmt.declare s id) i.simplify_simplify
  | .expr s x => congrArg (Stmt.expr s) x.simplify_simplify
  | .ret s x => congrArg (Stmt.ret s) x.simplify_simplify
  | .load _ _ | .cast _ _ _ | .leave _ | .read _ _ => rfl
  | .define s id params body => congrArg (Stmt.define s id params) (Block.simplify_simplify body)
  | .switch s arms otherwise =>
    congrArg₂ (Stmt.switch s) (Arm.simplifyAll_simplifyAll arms)
      (Block.simplifyOption_simplifyOption otherwise)
  | .branch s yes arms no => by
    rw [Stmt.simplify, Stmt.simplify, Block.simplifyOption_simplifyOption yes,
      Arm.simplifyAll_simplifyAll arms, Block.simplifyOption_simplifyOption no]
  | .loop s label close update body => by
    have hupdate : (update.map LoopUpdate.simplify).map LoopUpdate.simplify =
        update.map LoopUpdate.simplify := by
      cases update with
      | none => rfl
      | some u => exact congrArg some u.simplify_simplify
    rw [Stmt.simplify, Stmt.simplify, hupdate, Block.simplify_simplify body]
  | .print s args newline => congrArg (Stmt.print s · newline) (Expr.simplifyAll_simplifyAll args)
  | .store s id i x => congrArg₂ (Stmt.store s id) i.simplify_simplify x.simplify_simplify

theorem Stmt.simplifyAll_simplifyAll : ∀ ss : List Stmt,
    Stmt.simplifyAll (Stmt.simplifyAll ss) = Stmt.simplifyAll ss
  | [] => rfl
  | s :: ss => congrArg₂ List.cons (Stmt.simplify_simplify s) (Stmt.simplifyAll_simplifyAll ss)

theorem Block.simplify_simplify : ∀ b : Block, b.simplify.simplify = b.simplify
  | .mk s ss => congrArg (Block.mk s) (Stmt.simplifyAll_simplifyAll ss)

theorem Block.simplifyOption_simplifyOption : ∀ b : Option Block,
    Block.simplifyOption (Block.simplifyOption b) = Block.simplifyOption b
  | none => rfl
  | some b => congrArg some (Block.simplify_simplify b)

theorem Arm.simplify_simplify : ∀ a : Arm, a.simplify.simplify = a.simplify
  | .mk e b => congrArg₂ Arm.mk e.simplify_simplify (Block.simplify_simplify b)

theorem Arm.simplifyAll_simplifyAll : ∀ arms : List Arm,
    Arm.simplifyAll (Arm.simplifyAll arms) = Arm.simplifyAll arms
  | [] => rfl
  | a :: arms => congrArg₂ List.cons (Arm.simplify_simplify a) (Arm.simplifyAll_simplifyAll arms)

end

/-- What is folded is left alone when it is folded again, spans included: no fold makes room for
another, be it above it, below it or in its own place. -/
theorem Program.simplify_idempotent :
    (∀ e : Expr, e.simplify.simplify = e.simplify) ∧
      ∀ p : Program, p.simplify.simplify = p.simplify := by
  refine ⟨Expr.simplify_simplify, fun p => ?_⟩
  obtain ⟨span, version, body⟩ := p
  exact congrArg (Program.mk span version) body.simplify_simplify

end LolToolchain
