import LolToolchain.Proofs.Numbar.Basic
import LolToolchain.Proofs.Program.Grammar
import LolToolchain.Proofs.Program.Simplification
import Mathlib.Logic.Relation
import LolToolchain.Text.CommonNames

/-!
Expressions that are the same but for their spans. The relation is given by rules, one for each form
of expression; the test decides it, it is an equivalence where every number is defined, and folding
comparisons respects it.
-/
namespace LolToolchain

theorem Splice.sameAll_iff {as bs : List Splice} :
    sameAll as bs = true ↔ as.map unspanned = bs.map unspanned := by
  induction as generalizing bs with
  | nil => cases bs <;> simp [sameAll]
  | cons a as ih =>
    cases bs <;> simp [sameAll, same, ih, unspanned, Ident.unspanned]

namespace Expr

mutual

/-- Two expressions of one form, with the same names, operators and literals. -/
inductive Same : Expr → Expr → Prop
  | int {s t : Span} (v : Int64) : Same (.int s v) (.int t v)
  | float {s t : Span} {x y : Numbar} (h : x.equal y = true) : Same (.float s x) (.float t y)
  | string {s t : Span} (v : Text) : Same (.string s v) (.string t v)
  | interp {s t : Span} (v : Text) {as bs : List Splice} (h : Splice.sameAll as bs = true) :
    Same (.interp s v as) (.interp t v bs)
  | bool {s t : Span} (v : Bool) : Same (.bool s v) (.bool t v)
  | null {s t : Span} : Same (.null s) (.null t)
  | it {s t : Span} : Same (.it s) (.it t)
  | var {s t : Span} {a b : Ident} (h : a.name = b.name) : Same (.var s a) (.var t b)
  | list {s t : Span} {as bs : List Expr} (h : SameAll as bs) : Same (.list s as) (.list t bs)
  | call {s t : Span} {a b : Ident} {as bs : List Expr} (hname : a.name = b.name)
    (h : SameAll as bs) : Same (.call s a as) (.call t b bs)
  | concat {s t : Span} {as bs : List Expr} (h : SameAll as bs) : Same (.concat s as) (.concat t bs)
  | cast {s t : Span} {a b : Expr} (h : Same a b) (u : TypeName) : Same (.cast s a u) (.cast t b u)
  | binary {s t : Span} (op : BinaryOp) {a b c d : Expr} (hleft : Same a b) (hright : Same c d) :
    Same (.binary s op a c) (.binary t op b d)
  | nary {s t : Span} (op : ListOp) {as bs : List Expr} (h : SameAll as bs) :
    Same (.nary s op as) (.nary t op bs)
  | unary {s t : Span} (op : UnaryOp) {a b : Expr} (h : Same a b) :
    Same (.unary s op a) (.unary t op b)
  | pickAt {s t : Span} {i j a b : Expr} (hindex : Same i j) (h : Same a b) :
    Same (.pickAt s i a) (.pickAt t j b)
  | pickFront {s t : Span} {a b : Expr} (h : Same a b) : Same (.pickFront s a) (.pickFront t b)
  | pickBack {s t : Span} {a b : Expr} (h : Same a b) : Same (.pickBack s a) (.pickBack t b)

inductive SameAll : List Expr → List Expr → Prop
  | nil : SameAll [] []
  | cons {a b : Expr} {as bs : List Expr} (h : Same a b) (hs : SameAll as bs) :
    SameAll (a :: as) (b :: bs)

end

mutual

theorem same_of_test : ∀ x y : Expr, x.same y = true → x.Same y
  | .int _ v, y, h => by
    cases y with
    | int _ w =>
      cases eq_of_beq h
      exact .int v
    | _ => exact absurd h Bool.false_ne_true
  | .float _ v, y, h => by
    cases y with
    | float _ w => exact .float h
    | _ => exact absurd h Bool.false_ne_true
  | .string _ v, y, h => by
    cases y with
    | string _ w =>
      cases eq_of_beq h
      exact .string v
    | _ => exact absurd h Bool.false_ne_true
  | .interp _ v as, y, h => by
    cases y with
    | interp _ w bs =>
      obtain ⟨hv, hsplices⟩ := Bool.and_eq_true_iff.1 h
      cases eq_of_beq hv
      exact .interp v hsplices
    | _ => exact absurd h Bool.false_ne_true
  | .bool _ v, y, h => by
    cases y with
    | bool _ w =>
      cases eq_of_beq h
      exact .bool v
    | _ => exact absurd h Bool.false_ne_true
  | .null _, y, h => by
    cases y with
    | null => exact .null
    | _ => exact absurd h Bool.false_ne_true
  | .it _, y, h => by
    cases y with
    | it => exact .it
    | _ => exact absurd h Bool.false_ne_true
  | .var _ a, y, h => by
    cases y with
    | var _ b => exact .var (eq_of_beq h)
    | _ => exact absurd h Bool.false_ne_true
  | .list _ as, y, h => by
    cases y with
    | list _ bs => exact .list (sameAll_of_test as bs h)
    | _ => exact absurd h Bool.false_ne_true
  | .call _ a as, y, h => by
    cases y with
    | call _ b bs =>
      obtain ⟨hname, h⟩ := Bool.and_eq_true_iff.1 h
      exact .call (eq_of_beq hname) (sameAll_of_test as bs h)
    | _ => exact absurd h Bool.false_ne_true
  | .concat _ as, y, h => by
    cases y with
    | concat _ bs => exact .concat (sameAll_of_test as bs h)
    | _ => exact absurd h Bool.false_ne_true
  | .cast _ a u, y, h => by
    cases y with
    | cast _ b v =>
      obtain ⟨hu, hoperand⟩ := Bool.and_eq_true_iff.1 h
      cases eq_of_beq hu
      exact .cast (same_of_test a b hoperand) u
    | _ => exact absurd h Bool.false_ne_true
  | .binary _ op a c, y, h => by
    cases y with
    | binary _ p b d =>
      obtain ⟨hleft, hright⟩ := Bool.and_eq_true_iff.1 h
      obtain ⟨hop, hoperand⟩ := Bool.and_eq_true_iff.1 hleft
      cases eq_of_beq hop
      exact .binary op (same_of_test a b hoperand) (same_of_test c d hright)
    | _ => exact absurd h Bool.false_ne_true
  | .nary _ op as, y, h => by
    cases y with
    | nary _ p bs =>
      obtain ⟨hop, hoperands⟩ := Bool.and_eq_true_iff.1 h
      cases eq_of_beq hop
      exact .nary op (sameAll_of_test as bs hoperands)
    | _ => exact absurd h Bool.false_ne_true
  | .unary _ op a, y, h => by
    cases y with
    | unary _ p b =>
      obtain ⟨hop, hoperands⟩ := Bool.and_eq_true_iff.1 h
      cases eq_of_beq hop
      exact .unary op (same_of_test a b hoperands)
    | _ => exact absurd h Bool.false_ne_true
  | .pickAt _ i a, y, h => by
    cases y with
    | pickAt _ j b =>
      obtain ⟨hindex, h⟩ := Bool.and_eq_true_iff.1 h
      exact .pickAt (same_of_test i j hindex) (same_of_test a b h)
    | _ => exact absurd h Bool.false_ne_true
  | .pickFront _ a, y, h => by
    cases y with
    | pickFront _ b => exact .pickFront (same_of_test a b h)
    | _ => exact absurd h Bool.false_ne_true
  | .pickBack _ a, y, h => by
    cases y with
    | pickBack _ b => exact .pickBack (same_of_test a b h)
    | _ => exact absurd h Bool.false_ne_true

theorem sameAll_of_test : ∀ xs ys : List Expr, sameAll xs ys = true → SameAll xs ys
  | [], [], _ => .nil
  | [], _ :: _, h | _ :: _, [], h => absurd h Bool.false_ne_true
  | x :: xs, y :: ys, h =>
    have h := Bool.and_eq_true_iff.1 h
    .cons (same_of_test x y h.1) (sameAll_of_test xs ys h.2)

end

mutual

theorem Same.test : ∀ {x y : Expr}, x.Same y → x.same y = true
  | _, _, .int _ | _, _, .string _ | _, _, .bool _ => beq_self_eq_true _
  | _, _, .float h => h
  | _, _, .interp _ h => Bool.and_eq_true_iff.2 ⟨beq_self_eq_true _, h⟩
  | _, _, .null | _, _, .it => rfl
  | _, _, .var h => beq_iff_eq.2 h
  | _, _, .list h | _, _, .concat h => h.test
  | _, _, .call hname h => Bool.and_eq_true_iff.2 ⟨beq_iff_eq.2 hname, h.test⟩
  | _, _, .cast h _ | _, _, .unary _ h => Bool.and_eq_true_iff.2 ⟨beq_self_eq_true _, h.test⟩
  | _, _, .binary _ h h' =>
    Bool.and_eq_true_iff.2 ⟨Bool.and_eq_true_iff.2 ⟨beq_self_eq_true _, h.test⟩, h'.test⟩
  | _, _, .nary _ h => Bool.and_eq_true_iff.2 ⟨beq_self_eq_true _, h.test⟩
  | _, _, .pickAt h h' => Bool.and_eq_true_iff.2 ⟨h.test, h'.test⟩
  | _, _, .pickFront h | _, _, .pickBack h => h.test

theorem SameAll.test : ∀ {xs ys : List Expr}, SameAll xs ys → sameAll xs ys = true
  | _, _, .nil => rfl
  | _, _, .cons h hs => Bool.and_eq_true_iff.2 ⟨h.test, hs.test⟩

end

/-- The test decides the relation. -/
theorem same_iff {x y : Expr} : x.same y = true ↔ x.Same y :=
  ⟨same_of_test x y, Same.test⟩

mutual

theorem Same.symm : ∀ {x y : Expr}, x.Same y → y.Same x
  | _, _, .int v => .int v
  | _, _, .float h => .float (Numbar.equal_symm h)
  | _, _, .string v => .string v
  | _, _, .interp v h => .interp v (Splice.sameAll_iff.2 (Splice.sameAll_iff.1 h).symm)
  | _, _, .bool v => .bool v
  | _, _, .null => .null
  | _, _, .it => .it
  | _, _, .var h => .var h.symm
  | _, _, .list h => .list h.symm
  | _, _, .call hname h => .call hname.symm h.symm
  | _, _, .concat h => .concat h.symm
  | _, _, .cast h u => .cast h.symm u
  | _, _, .binary op h h' => .binary op h.symm h'.symm
  | _, _, .nary op h => .nary op h.symm
  | _, _, .unary op h => .unary op h.symm
  | _, _, .pickAt h h' => .pickAt h.symm h'.symm
  | _, _, .pickFront h => .pickFront h.symm
  | _, _, .pickBack h => .pickBack h.symm

theorem SameAll.symm : ∀ {xs ys : List Expr}, SameAll xs ys → SameAll ys xs
  | _, _, .nil => .nil
  | _, _, .cons h hs => .cons h.symm hs.symm

end

mutual

theorem Same.trans : ∀ {x y z : Expr}, x.Same y → y.Same z → x.Same z
  | _, _, _, .int v, .int _ => .int v
  | _, _, _, .float h, .float h' => .float (Numbar.equal_trans h h')
  | _, _, _, .string v, .string _ => .string v
  | _, _, _, .interp v h, .interp _ h' =>
    .interp v (Splice.sameAll_iff.2 ((Splice.sameAll_iff.1 h).trans (Splice.sameAll_iff.1 h')))
  | _, _, _, .bool v, .bool _ => .bool v
  | _, _, _, .null, .null => .null
  | _, _, _, .it, .it => .it
  | _, _, _, .var h, .var h' => .var (h.trans h')
  | _, _, _, .list h, .list h' => .list (h.trans h')
  | _, _, _, .call hname h, .call hname' h' => .call (hname.trans hname') (h.trans h')
  | _, _, _, .concat h, .concat h' => .concat (h.trans h')
  | _, _, _, .cast h u, .cast h' _ => .cast (h.trans h') u
  | _, _, _, .binary op hl hr, .binary _ hl' hr' => .binary op (hl.trans hl') (hr.trans hr')
  | _, _, _, .nary op h, .nary _ h' => .nary op (h.trans h')
  | _, _, _, .unary op h, .unary _ h' => .unary op (h.trans h')
  | _, _, _, .pickAt hi h, .pickAt hi' h' => .pickAt (hi.trans hi') (h.trans h')
  | _, _, _, .pickFront h, .pickFront h' => .pickFront (h.trans h')
  | _, _, _, .pickBack h, .pickBack h' => .pickBack (h.trans h')

theorem SameAll.trans : ∀ {xs ys zs : List Expr}, SameAll xs ys → SameAll ys zs → SameAll xs zs
  | _, _, _, .nil, .nil => .nil
  | _, _, _, .cons h hs, .cons h' hs' => .cons (h.trans h') (hs.trans hs')

end

mutual

/-- An expression is the same as itself, unless it has a number in it that is undefined. -/
theorem same_self : ∀ x : Expr, (∀ y, .numbar y ∈ x.literals → y.isNaN = false) → x.Same x
  | .int _ v, _ => .int v
  | .float _ y, h => .float (Numbar.equal_self (h y List.mem_cons_self))
  | .string _ v, _ => .string v
  | .interp _ v _, _ => .interp v (Splice.sameAll_iff.2 rfl)
  | .bool _ v, _ => .bool v
  | .null _, _ => .null
  | .it _, _ => .it
  | .var _ _, _ => .var rfl
  | .list _ xs, h => .list (sameAll_self xs h)
  | .call _ _ xs, h => .call rfl (sameAll_self xs h)
  | .concat _ xs, h => .concat (sameAll_self xs h)
  | .cast _ x u, h => .cast (same_self x h) u
  | .nary _ op xs, h => .nary op (sameAll_self xs h)
  | .unary _ op x, h => .unary op (same_self x h)
  | .pickFront _ x, h => .pickFront (same_self x h)
  | .pickBack _ x, h => .pickBack (same_self x h)
  | .binary _ op a b, h =>
    .binary op (same_self a fun y hy => h y (List.mem_append_left _ hy))
      (same_self b fun y hy => h y (List.mem_append_right _ hy))
  | .pickAt _ i x, h =>
    .pickAt (same_self i fun y hy => h y (List.mem_append_left _ hy))
      (same_self x fun y hy => h y (List.mem_append_right _ hy))

theorem sameAll_self : ∀ xs : List Expr,
    (∀ y, .numbar y ∈ literalsAll xs → y.isNaN = false) → SameAll xs xs
  | [], _ => .nil
  | x :: xs, h =>
    .cons (same_self x fun y hy => h y (List.mem_append_left _ hy))
      (sameAll_self xs fun y hy => h y (List.mem_append_right _ hy))

end

mutual

theorem Same.hasCall : ∀ {x y : Expr}, x.Same y → x.hasCall = y.hasCall
  | _, _, .int _ | _, _, .float _ | _, _, .string _ | _, _, .interp _ _ | _, _, .bool _
  | _, _, .null | _, _, .it | _, _, .var _ | _, _, .call _ _ => rfl
  | _, _, .list h | _, _, .concat h | _, _, .nary _ h => h.anyCall
  | _, _, .cast h _ | _, _, .unary _ h | _, _, .pickFront h | _, _, .pickBack h => h.hasCall
  | _, _, .binary _ h h' | _, _, .pickAt h h' => congrArg₂ (· || ·) h.hasCall h'.hasCall

theorem SameAll.anyCall : ∀ {xs ys : List Expr}, SameAll xs ys → anyCall xs = anyCall ys
  | _, _, .nil => rfl
  | _, _, .cons h hs => congrArg₂ (· || ·) h.hasCall hs.anyCall

end

theorem Same.notNumeric {x y : Expr} (h : x.Same y) : x.notNumeric = y.notNumeric := by
  cases h <;> rfl

private theorem Same.same_congr {x x' y y' : Expr} (hx : x.Same x') (hy : y.Same y') :
    x.same y = x'.same y' := by
  rw [Bool.eq_iff_iff, same_iff, same_iff]
  exact ⟨fun h => hx.symm.trans (h.trans hy), fun h => hx.trans (h.trans hy.symm)⟩

/-- Extremes of one kind with the same operands. -/
structure Extreme.Same (m n : Extreme) : Prop where
  isGreater : m.isGreater = n.isGreater
  left : m.left.Same n.left
  right : m.right.Same n.right

variable {x x' y y' : Expr}

private theorem Same.extreme? (h : x.Same y) : Option.Rel Extreme.Same x.extreme? y.extreme? := by
  cases h with
  | binary op hl hr =>
    cases op with
    | max | min => exact .some ⟨rfl, hl, hr⟩
    | _ => exact .none
  | _ => exact .none

private theorem Same.extremeAndOther? (hx : x.Same x') (hy : y.Same y') :
    Option.Rel (fun r r' => r.1.Same r'.1 ∧ r.2.Same r'.2) (extremeAndOther? x y)
      (extremeAndOther? x' y') := by
  have hleft := hx.extreme?
  have hright := hy.extreme?
  dsimp only [Expr.extremeAndOther?]
  generalize x.extreme? = m, x'.extreme? = m' at hleft
  generalize y.extreme? = n, y'.extreme? = n' at hright
  cases hleft with
  | some h => exact .some ⟨h, hy⟩
  | none =>
    cases hright with
    | some h => exact .some ⟨h, hx⟩
    | none => exact .none

private theorem Extreme.Same.split? {m n : Extreme} (h : m.Same n) (hx : x.Same y) :
    Option.Rel (fun r r' => r.1.Same r'.1 ∧ r.2.Same r'.2) (m.split? x) (n.split? y) := by
  rw [Extreme.split?, Extreme.split?, h.left.same_congr hx, h.right.same_congr hx]
  split
  · exact .some ⟨h.left, h.right⟩
  · split
    · exact .some ⟨h.right, h.left⟩
    · exact .none

theorem Same.foldComparison {s t : Span} (op : BinaryOp) (hx : x.Same x') (hy : y.Same y') :
    (foldComparison s op x y).Same (foldComparison t op x' y') := by
  have hsides := hx.extremeAndOther? hy
  dsimp only [Expr.foldComparison]
  split
  · exact .binary op hx hy
  · generalize Expr.extremeAndOther? x y = r, Expr.extremeAndOther? x' y' = r' at hsides
    cases hsides with
    | none => exact .binary op hx hy
    | some h =>
      obtain ⟨hm, hother⟩ := h
      have hsplit := hm.split? hother
      dsimp only
      rw [hother.hasCall, hother.notNumeric, hm.isGreater]
      split
      · exact .binary op hx hy
      · revert hsplit
        generalize Extreme.split? _ _ = r, Extreme.split? _ _ = r'
        rintro (⟨hmatched, hrest⟩ | _)
        · dsimp only
          split
          · exact .binary _ hmatched hrest
          · exact .binary _ hrest hmatched
        · exact .binary op hx hy

mutual

theorem Same.simplify : ∀ {x y : Expr}, x.Same y → x.simplify.Same y.simplify
  | _, _, .int v => .int v
  | _, _, .float h => .float h
  | _, _, .string v => .string v
  | _, _, .interp v h => .interp v h
  | _, _, .bool v => .bool v
  | _, _, .null => .null
  | _, _, .it => .it
  | _, _, .var h => .var h
  | _, _, .list h => .list h.simplifyAll
  | _, _, .call hname h => .call hname h.simplifyAll
  | _, _, .concat h => .concat h.simplifyAll
  | _, _, .cast h u => .cast h.simplify u
  | _, _, .nary op h => .nary op h.simplifyAll
  | _, _, .unary op h => .unary op h.simplify
  | _, _, .pickAt h h' => .pickAt h.simplify h'.simplify
  | _, _, .pickFront h => .pickFront h.simplify
  | _, _, .pickBack h => .pickBack h.simplify
  | _, _, .binary op h h' => h.simplify.foldComparison op h'.simplify

theorem SameAll.simplifyAll : ∀ {xs ys : List Expr}, SameAll xs ys →
    SameAll (simplifyAll xs) (simplifyAll ys)
  | _, _, .nil => .nil
  | _, _, .cons h hs => .cons h.simplify hs.simplifyAll

end

end Expr

namespace Grammar

/-- The literals of a node. -/
def Node.literals : Node → List Value
  | .name _ => []
  | .expr x => x.literals
  | .stmt s => s.literals
  | .block b => Stmt.literalsAll b.stmts
  | .program p => p.literals

def Piece.literals (p : Piece) : List Value :=
  p.nodes.flatMap Node.literals

/-- The literals of parts one behind another. -/
def literals (ps : List Piece) : List Value :=
  ps.flatMap Piece.literals

@[simp]
theorem literals_nil : literals [] = [] :=
  rfl

@[simp]
theorem literals_append (ps qs : List Piece) : literals (ps ++ qs) = literals ps ++ literals qs :=
  List.flatMap_append

@[simp]
theorem literals_cons (p : Piece) (ps : List Piece) : literals (p :: ps) = p.literals ++ literals ps :=
  rfl

@[simp]
theorem Piece.literals_token (ks : List TokenKind) : literals (.token ks) = [] :=
  rfl

@[simp]
theorem Piece.literals_optional (k : TokenKind) : literals (.optional k) = [] :=
  rfl

@[simp]
theorem Piece.literals_breaks : literals .breaks = [] :=
  rfl

@[simp]
theorem Piece.literals_node (n : Node) : literals (.node n) = n.literals :=
  List.append_nil _

@[simp]
theorem Piece.literals_inside (ids : List Ident) : literals (.inside ids) = [] := by
  simp [literals, Piece.nodes, Node.literals]

@[simp]
theorem literals_words (ks : List Keyword) : literals (words ks) = [] := by
  induction ks with
  | nil => rfl
  | cons k ks ih => exact ih

@[simp]
theorem literals_listed (lead : List Keyword) (xs : List Expr) :
    literals (listed lead xs) = Expr.literalsAll xs := by
  induction xs with
  | nil => rfl
  | cons x xs ih =>
    change literals
      (words lead ++ [Piece.node (.expr x), Piece.optional (.keyword .AN)] ++ listed lead xs) = _
    simp [ih, Node.literals, Expr.literalsAll]

@[simp]
theorem literals_body (b : Block) : literals (body b) = Stmt.literalsAll b.stmts := by
  simp [body, Node.literals]

@[simp]
theorem literals_optionalBody (lead : List Keyword) (b : Option Block) :
    literals (optionalBody lead b) = Block.literalsOption b := by
  cases b with
  | none => rfl
  | some b =>
    obtain ⟨span, ss⟩ := b
    simp [optionalBody, Block.literalsOption, Block.stmts]

@[simp]
theorem literals_armParts (lead : Keyword) (arms : List Arm) :
    literals (armParts lead arms) = Arm.literalsAll arms := by
  induction arms with
  | nil => rfl
  | cons a arms ih =>
    obtain ⟨test, span, ss⟩ := a
    change literals (words [lead] ++ [Piece.node (.expr test)] ++ body (.mk span ss) ++
      armParts lead arms) = _
    simp [ih, Arm.literalsAll, Block.stmts, Node.literals]

@[simp]
theorem literals_params (ids : List Ident) : literals (params ids) = [] := by
  induction ids with
  | nil => rfl
  | cons id ids ih => exact ih

@[simp]
theorem literals_initialParts (i : Initial) : literals (initialParts i) = i.literals := by
  cases i <;> simp [initialParts, Initial.literals, Node.literals]

@[simp]
theorem literals_updateParts (u : Option LoopUpdate) :
    literals (updateParts u) = LoopUpdate.literals u := by
  cases u with
  | none => rfl
  | some u =>
    obtain ⟨change, counter, test⟩ := u
    cases change <;> cases test <;>
      simp [updateParts, changeParts, testParts, LoopUpdate.literals, LoopTest.literals, Node.literals]

private theorem literals_lines (ss : List Stmt) : literals (lines ss) = Stmt.literalsAll ss := by
  induction ss with
  | nil => rfl
  | cons s ss ih =>
    change literals ([Piece.node (.stmt s), Piece.breaks] ++ lines ss) = _
    simp [ih, Stmt.literalsAll, Node.literals]

/-- A node has the literals of its parts. -/
private theorem literals_parts_subset (n : Node) : literals n.parts ⊆ n.literals := by
  cases n with
  | name id => simp [Node.parts]
  | expr x => cases x <;> simp [Node.parts, exprParts, Node.literals, Expr.literals]
  | block b =>
    change literals (lines b.stmts) ⊆ _
    rw [literals_lines]
    exact List.Subset.refl _
  | program p => simp [Node.parts, programParts, Node.literals, Program.literals]
  | stmt s =>
    cases s with
    | define span id params b =>
      obtain ⟨place, ss⟩ := b
      simp [Node.parts, stmtParts, Node.literals, Stmt.literals, Block.stmts]
    | loop span label close update b =>
      obtain ⟨place, ss⟩ := b
      simp [Node.parts, stmtParts, Node.literals, Stmt.literals, Block.stmts]
    | print span xs newline =>
      cases newline <;> simp [Node.parts, stmtParts, Node.literals, Stmt.literals]
    | _ => simp [Node.parts, stmtParts, Node.literals, Stmt.literals]

private theorem literals_children_subset {n m : Node} (h : m ∈ n.children) : m.literals ⊆ n.literals := by
  obtain ⟨p, hp, hm⟩ := List.mem_flatMap.1 h
  intro v hv
  exact literals_parts_subset n (List.mem_flatMap.2 ⟨p, hp, List.mem_flatMap.2 ⟨m, hm, hv⟩⟩)

end Grammar

namespace Expr

open Grammar (Node)

/-- An expression that stands in a program that is read from some text, be it as a part of a larger
one. -/
def IsRead [CharNames] (x : Expr) : Prop :=
  ∃ file text p, Program.parse file text = .ok p ∧
    Relation.ReflTransGen (fun n m => m ∈ Node.children n) (.program p) (.expr x)

private theorem IsRead.defined [CharNames] {x : Expr} (h : x.IsRead) {y : Numbar}
    (hy : .numbar y ∈ x.literals) : y.isNaN = false := by
  obtain ⟨file, text, p, hparse, hreach⟩ := h
  have hliteral : ∀ n, Relation.ReflTransGen (fun n m => m ∈ Node.children n) (.program p) n →
      n.literals ⊆ p.literals := by
    intro n hn
    induction hn with
    | refl => exact List.Subset.refl _
    | tail _ hchild ih => exact List.Subset.trans (Grammar.literals_children_subset hchild) ih
  obtain ⟨whole, fraction, hspelled⟩ :=
    (Program.meets_of_parse hparse).literals _ (hliteral _ hreach hy)
  have hfinite := Numbar.finite_of_read? hspelled.read
  exact decide_eq_false (Nat.not_lt.2 (Nat.le_of_lt hfinite))

/-- The relation is an equivalence of the expressions that are read. Those that are the same make the
same calls, or none, and are the same after their comparisons are folded. -/
theorem same_equivalence [CharNames] :
    Equivalence (fun a b : {x : Expr // x.IsRead} => a.1.same b.1 = true) ∧
      ∀ a b : Expr, a.same b = true →
        a.hasCall = b.hasCall ∧ a.simplify.same b.simplify = true := by
  refine ⟨⟨fun a => ?_, fun h => ?_, fun h h' => ?_⟩, fun a b h => ?_⟩
  · exact (same_self a.1 fun _ => a.2.defined).test
  · exact (same_iff.1 h).symm.test
  · exact ((same_iff.1 h).trans (same_iff.1 h')).test
  · have h := same_iff.1 h
    exact ⟨h.hasCall, h.simplify.test⟩

attribute [local instance] CharNames.common

/-- A comparison of a negative zero, and one of zero that stands elsewhere. -/
theorem same_equivalence_zeros :
    let comparison (s : Span) (x : Numbar) : Expr :=
      .binary s .equal (.float s x) (.binary s .max (.int s 1) (.float s x))
    let a := comparison .zero .zero
    let b := comparison ⟨8, 9, 0⟩ (.ofMagnitude true 0)
    a.same b = true ∧ a.hasCall = b.hasCall ∧ a.simplify.same b.simplify = true :=
  have h := by decide +kernel
  ⟨h, same_equivalence.2 _ _ h⟩

end Expr

end LolToolchain
