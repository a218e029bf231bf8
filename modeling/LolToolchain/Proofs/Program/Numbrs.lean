import LolToolchain.Machine.Number
import LolToolchain.Proofs.Program.Simplification
import LolToolchain.Token.NameTable

/-!
Names that hold nothing but `NUMBR`s, as the text of a program shows it: whatever is written to them
gives a `NUMBR` if it gives anything. With such names it can be told of a comparison that is folded
that it is one of `NUMBR`s.
-/
namespace LolToolchain

/-- What arithmetic an operator does. -/
def BinaryOp.arithmetic? : BinaryOp → Option Arithmetic
  | .add => some .add
  | .sub => some .sub
  | .mul => some .mul
  | .div => some .div
  | .mod => some .mod
  | .min => some .min
  | .max => some .max
  | _ => none

/-- Whether arithmetic of `NUMBR`s never fails. -/
def Arithmetic.isTotal : Arithmetic → Bool
  | .div | .mod => false
  | _ => true

namespace Expr

/-- Whether an expression can be seen to give a `NUMBR` if it gives anything, where the names `ns` hold
`NUMBR`s. -/
def isNumbr (ns : List Text) : Expr → Bool
  | .int _ _ => true
  | .var _ id => decide (id.name ∈ ns)
  | .cast _ _ t => t == .numbr
  | .unary _ op _ => op == .length
  | .binary _ op a b => op.arithmetic?.isSome && a.isNumbr ns && b.isNumbr ns
  | _ => false

/-- Whether an expression can be seen to give a `NUMBR` and to do nothing else: it cannot fail. -/
def isSteady (ns : List Text) : Expr → Bool
  | .int _ _ => true
  | .var _ id => decide (id.name ∈ ns)
  | .binary _ op a b => op.arithmetic?.any Arithmetic.isTotal && a.isSteady ns && b.isSteady ns
  | _ => false

/-- Whether a comparison is one of `NUMBR`s if it is folded. The operand that is found again is steady.
The other one may be anything in an equation; in a negated one it gives a `NUMBR`. -/
def comparesNumbrs (ns : List Text) (op : BinaryOp) (left right : Expr) : Bool :=
  match extremeAndOther? left right with
  | none => true
  | some (m, other) =>
    match m.split? other with
    | none => true
    | some (matched, rest) =>
      other.hasCall || other.notNumeric ||
        matched.isSteady ns && (op == .equal || rest.isNumbr ns)

mutual

/-- Whether all comparisons in an expression that are folded are those of `NUMBR`s. -/
def foldsNumbrs (ns : List Text) : Expr → Bool
  | .list _ xs | .call _ _ xs | .concat _ xs | .nary _ _ xs => foldsNumbrsAll ns xs
  | .cast _ x _ | .unary _ _ x | .pickFront _ x | .pickBack _ x => foldsNumbrs ns x
  | .pickAt _ i x => foldsNumbrs ns i && foldsNumbrs ns x
  | .binary _ op a b =>
    foldsNumbrs ns a && foldsNumbrs ns b &&
      (op != .equal && op != .notEqual || comparesNumbrs ns op a.simplify b.simplify)
  | .int _ _ | .float _ _ | .string _ _ | .interp _ _ _ | .bool _ _ | .null _ | .it _
  | .var _ _ => true

def foldsNumbrsAll (ns : List Text) : List Expr → Bool
  | [] => true
  | x :: xs => foldsNumbrs ns x && foldsNumbrsAll ns xs

end

end Expr

/-- Whether a variable that is declared so starts with a `NUMBR`. -/
def Initial.isNumbr (ns : List Text) : Initial → Bool
  | .absent => false
  | .value e => e.isNumbr ns
  | .typed t => t == .numbr

def Initial.foldsNumbrs (ns : List Text) : Initial → Bool
  | .value e => e.foldsNumbrs ns
  | _ => true

def LoopTest.foldsNumbrs (ns : List Text) : LoopTest → Bool
  | .forever => true
  | .untilTrue e | .whileTrue e => e.foldsNumbrs ns

/-- Whether a loop's variable may be changed so. A function may give anything. -/
def LoopUpdate.foldsNumbrs (ns : List Text) (u : LoopUpdate) : Bool :=
  u.test.foldsNumbrs ns &&
    match u.change with
    | .up | .down => true
    | .apply _ => decide (u.counter.name ∉ ns)

mutual

/-- Whether the names `ns` hold nothing but `NUMBR`s behind a statement if they did before it, and all
comparisons in it that are folded are those of `NUMBR`s. -/
def Stmt.foldsNumbrs (ns : List Text) : Stmt → Bool
  | .assign _ target value =>
    value.foldsNumbrs ns && (decide (target.name ∉ ns) || value.isNumbr ns)
  | .declare _ name initial =>
    initial.foldsNumbrs ns && (decide (name.name ∉ ns) || initial.isNumbr ns)
  | .load _ _ | .leave _ => true
  | .define _ name params body =>
    decide (name.name ∉ ns) && params.all (fun p => decide (p.name ∉ ns)) && body.foldsNumbrs ns
  | .expr _ value | .ret _ value | .append _ _ value => value.foldsNumbrs ns
  | .switch _ arms otherwise => Arm.foldsNumbrsAll ns arms && Block.foldsNumbrsOption ns otherwise
  | .branch _ yes arms no =>
    Block.foldsNumbrsOption ns yes && Arm.foldsNumbrsAll ns arms && Block.foldsNumbrsOption ns no
  | .cast _ name target => decide (name.name ∉ ns) || target == .numbr
  | .loop _ _ _ update body => update.all (LoopUpdate.foldsNumbrs ns) && body.foldsNumbrs ns
  | .print _ args _ => Expr.foldsNumbrsAll ns args
  | .read _ target => decide (target.name ∉ ns)
  | .store _ _ index value => index.foldsNumbrs ns && value.foldsNumbrs ns

def Stmt.foldsNumbrsAll (ns : List Text) : List Stmt → Bool
  | [] => true
  | s :: ss => s.foldsNumbrs ns && Stmt.foldsNumbrsAll ns ss

def Block.foldsNumbrs (ns : List Text) : Block → Bool
  | .mk _ ss => Stmt.foldsNumbrsAll ns ss

def Block.foldsNumbrsOption (ns : List Text) : Option Block → Bool
  | none => true
  | some b => b.foldsNumbrs ns

def Arm.foldsNumbrsAll (ns : List Text) : List Arm → Bool
  | [] => true
  | .mk test body :: arms =>
    test.foldsNumbrs ns && body.foldsNumbrs ns && Arm.foldsNumbrsAll ns arms

end

/-- Whether the names `ns`, which are those of variables, hold nothing but `NUMBR`s all through a
program, and all comparisons that are folded are those of `NUMBR`s. -/
def Program.foldsNumbrs (ns : List Text) (p : Program) : Bool :=
  decide (implicitName ∉ ns) && p.body.foldsNumbrs ns

theorem Program.foldsNumbrs_parts {ns : List Text} {p : Program} (h : p.foldsNumbrs ns = true) :
    implicitName ∉ ns ∧ Stmt.foldsNumbrsAll ns p.body.stmts = true := by
  obtain ⟨span, version, _, body⟩ := p
  simp only [foldsNumbrs, Block.foldsNumbrs, Bool.and_eq_true, decide_eq_true_eq] at h
  exact h

namespace Expr

variable {ns : List Text} {span : Span} {op : BinaryOp} {left right other matched rest x y : Expr}
variable {m : Extreme}

theorem Folds.numbrs (h : Folds op left right m other matched rest)
    (hnumbrs : comparesNumbrs ns op left right = true) :
    matched.isSteady ns = true ∧ (op = .notEqual → rest.isNumbr ns = true) := by
  obtain ⟨hop, hsides, hcall, hnumeric, hsplit⟩ := h
  simp only [comparesNumbrs, hsides, hsplit, hcall, hnumeric, Bool.false_or, Bool.and_eq_true,
    Bool.or_eq_true, beq_iff_eq] at hnumbrs
  refine ⟨hnumbrs.1, fun hnot => hnumbrs.2.resolve_left ?_⟩
  rw [hnot]
  exact nofun

/-- A comparison gives no `NUMBR`, folded or not. -/
theorem Folds.not_arithmetic (h : Folds op left right m other matched rest) (ns : List Text)
    (span : Span) :
    op.arithmetic? = none ∧ (foldComparison span op left right).isNumbr ns = false ∧
      (foldComparison span op left right).isSteady ns = false := by
  rw [h.fold_eq, Extreme.ordering]
  rcases h.operator with rfl | rfl <;> cases m.isGreater <;> exact ⟨rfl, rfl, rfl⟩

/-- Folding does not change whether an expression gives a `NUMBR`. -/
theorem isNumbr_simplify : ∀ x : Expr, x.simplify.isNumbr ns = x.isNumbr ns
  | .binary span op a b => by
    rw [simplify]
    obtain hkept | ⟨m, other, matched, rest, hfolds⟩ :=
      foldComparison_cases span op a.simplify b.simplify
    · rw [hkept, isNumbr, isNumbr, isNumbr_simplify a, isNumbr_simplify b]
    · obtain ⟨hop, hnumbr, -⟩ := hfolds.not_arithmetic ns span
      rw [hnumbr, isNumbr, hop]
      rfl
  | .int _ _ | .float _ _ | .string _ _ | .interp _ _ _ | .bool _ _ | .list _ _ | .null _ | .it _
  | .var _ _ | .call _ _ _ | .concat _ _ | .cast _ _ _ | .nary _ _ _ | .unary _ _ _
  | .pickAt _ _ _ | .pickFront _ _ | .pickBack _ _ => rfl

/-- A steady expression is left as it is. -/
private theorem simplify_of_isSteady : ∀ {x : Expr}, x.isSteady ns = true → x.simplify = x
  | .int _ _, _ | .var _ _, _ => rfl
  | .binary span op a b, h => by
    simp only [isSteady, Bool.and_eq_true] at h
    rw [simplify, simplify_of_isSteady h.1.2, simplify_of_isSteady h.2]
    obtain hkept | ⟨m, other, matched, rest, hfolds⟩ := foldComparison_cases span op a b
    · exact hkept
    · have hop := h.1.1
      rw [(hfolds.not_arithmetic ns span).1] at hop
      cases hop

/-- What is steady when it is folded was steady before. -/
private theorem isSteady_of_simplify : ∀ {x : Expr}, x.simplify.isSteady ns = true → x.isSteady ns = true
  | .int _ _, h | .var _ _, h => h
  | .binary span op a b, h => by
    rw [simplify] at h
    obtain hkept | ⟨m, other, matched, rest, hfolds⟩ :=
      foldComparison_cases span op a.simplify b.simplify
    · simp only [hkept, isSteady, Bool.and_eq_true] at h ⊢
      exact ⟨⟨h.1.1, isSteady_of_simplify h.1.2⟩, isSteady_of_simplify h.2⟩
    · rw [(hfolds.not_arithmetic ns span).2.2] at h
      cases h

/-- An expression that becomes a steady one is steady already. -/
theorem eq_of_simplify_steady (h : x.simplify.isSteady ns = true) : x.simplify = x :=
  simplify_of_isSteady (isSteady_of_simplify h)

/-- What is the same as a steady expression is steady. -/
theorem isSteady_of_same : ∀ {x y : Expr}, x.same y = true → x.isSteady ns = true →
    y.isSteady ns = true
  | .int _ _, y, h, _ => by cases y <;> first | rfl | cases h
  | .var _ id, y, h, hx => by
    cases y with
    | var s id' =>
      rw [same, beq_iff_eq] at h
      rwa [isSteady, ← h]
    | _ => cases h
  | .binary _ op a b, y, h, hx => by
    cases y with
    | binary s op' a' b' =>
      simp only [same, Bool.and_eq_true, beq_iff_eq] at h
      simp only [isSteady, Bool.and_eq_true] at hx ⊢
      exact ⟨⟨h.1.1 ▸ hx.1.1, isSteady_of_same h.1.2 hx.1.2⟩, isSteady_of_same h.2 hx.2⟩
    | _ => cases h

/-- An expression that becomes an extreme was one. -/
theorem Extreme.eq_of_simplify (h : x.simplify = .binary span m.op left right) :
    ∃ a b, x = .binary span m.op a b ∧ a.simplify = left ∧ b.simplify = right := by
  cases x with
  | binary s op a b =>
    rw [simplify] at h
    obtain hkept | ⟨m', other, matched, rest, hfolds⟩ :=
      foldComparison_cases s op a.simplify b.simplify
    · rw [hkept] at h
      cases h
      exact ⟨a, b, rfl, rfl, rfl⟩
    · rw [hfolds.fold_eq, Extreme.ordering, Extreme.op] at h
      obtain ⟨isGreater, _, _⟩ := m
      obtain ⟨isGreater', _, _⟩ := m'
      rcases hfolds.operator with rfl | rfl <;> cases isGreater <;> cases isGreater' <;> cases h
  | _ => cases h

end Expr
end LolToolchain
