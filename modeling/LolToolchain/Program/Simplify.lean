import LolToolchain.Program.Equality

/-!
Comparisons with the greater or lesser of two values become orderings: `x` equals the greater of
`x` and `y` when `x ≥ y`, and differs from it when `y > x`; likewise for the lesser. The compared
operand must be free of calls, and must not be known to be something other than a number.
-/
namespace LolToolchain

namespace Expr

/-- Whether an expression can be seen to give something other than a number. -/
def notNumeric : Expr → Bool
  | .string _ _ | .interp _ _ _ | .bool _ _ | .null _ | .list _ _ | .concat _ _ => true
  | .cast _ _ t => t != .numbr && t != .numbar
  | _ => false

/-- The greater or lesser of two operands. -/
structure Extreme where
  isGreater : Bool
  left : Expr
  right : Expr

def extreme? : Expr → Option Extreme
  | .binary _ .max a b => some ⟨true, a, b⟩
  | .binary _ .min a b => some ⟨false, a, b⟩
  | _ => none

def extremeAndOther? (left right : Expr) : Option (Extreme × Expr) :=
  match extreme? left with
  | some m => some (m, right)
  | none => (extreme? right).map fun m => (m, left)

/-- The operand of an extreme that is the other side of the comparison, and the one that is not. -/
def Extreme.split? (m : Extreme) (other : Expr) : Option (Expr × Expr) :=
  if m.left.same other then some (m.left, m.right)
  else if m.right.same other then some (m.right, m.left)
  else none

/-- A comparison, folded when it is with an extreme of one of its own sides. -/
def foldComparison (span : Span) (op : BinaryOp) (left right : Expr) : Expr :=
  let kept := .binary span op left right
  if op != .equal && op != .notEqual then kept
  else match extremeAndOther? left right with
    | none => kept
    | some (m, other) =>
      if other.hasCall || other.notNumeric then kept
      else match m.split? other with
        | none => kept
        | some (matched, rest) =>
          if op == .equal then
            .binary span (if m.isGreater then .ge else .le) matched rest
          else
            .binary span (if m.isGreater then .gt else .lt) rest matched

mutual

/-- An expression with its comparisons folded, from the inside out. -/
def simplify : Expr → Expr
  | .list s xs => .list s (simplifyAll xs)
  | .call s name xs => .call s name (simplifyAll xs)
  | .concat s xs => .concat s (simplifyAll xs)
  | .cast s x t => .cast s (simplify x) t
  | .nary s op xs => .nary s op (simplifyAll xs)
  | .unary s op x => .unary s op (simplify x)
  | .pickAt s i x => .pickAt s (simplify i) (simplify x)
  | .pickFront s x => .pickFront s (simplify x)
  | .pickBack s x => .pickBack s (simplify x)
  | .binary s op a b => foldComparison s op (simplify a) (simplify b)
  | .int s v => .int s v
  | .float s v => .float s v
  | .string s v => .string s v
  | .interp s v sp => .interp s v sp
  | .bool s v => .bool s v
  | .null s => .null s
  | .it s => .it s
  | .var s v => .var s v

def simplifyAll : List Expr → List Expr
  | [] => []
  | x :: xs => simplify x :: simplifyAll xs

end

end Expr

def Initial.simplify : Initial → Initial
  | .absent => .absent
  | .value e => .value e.simplify
  | .typed t => .typed t

def LoopTest.simplify : LoopTest → LoopTest
  | .forever => .forever
  | .untilTrue e => .untilTrue e.simplify
  | .whileTrue e => .whileTrue e.simplify

def LoopUpdate.simplify (u : LoopUpdate) : LoopUpdate :=
  { u with test := u.test.simplify }

mutual

def Stmt.simplify : Stmt → Stmt
  | .assign s t v => .assign s t v.simplify
  | .declare s n i => .declare s n i.simplify
  | .load s n => .load s n
  | .define s n ps b => .define s n ps b.simplify
  | .expr s v => .expr s v.simplify
  | .switch s arms other => .switch s (Arm.simplifyAll arms) (Block.simplifyOption other)
  | .branch s yes arms no =>
    .branch s (Block.simplifyOption yes) (Arm.simplifyAll arms) (Block.simplifyOption no)
  | .cast s n t => .cast s n t
  | .leave s => .leave s
  | .loop s l e u b => .loop s l e (u.map LoopUpdate.simplify) b.simplify
  | .ret s v => .ret s v.simplify
  | .print s args nl => .print s (Expr.simplifyAll args) nl
  | .read s t => .read s t
  | .append s t v => .append s t v.simplify
  | .store s t i v => .store s t i.simplify v.simplify

def Stmt.simplifyAll : List Stmt → List Stmt
  | [] => []
  | s :: ss => s.simplify :: Stmt.simplifyAll ss

def Block.simplify : Block → Block
  | .mk s ss => .mk s (Stmt.simplifyAll ss)

def Block.simplifyOption : Option Block → Option Block
  | none => none
  | some b => some b.simplify

def Arm.simplify : Arm → Arm
  | .mk e b => .mk e.simplify b.simplify

def Arm.simplifyAll : List Arm → List Arm
  | [] => []
  | a :: as => a.simplify :: Arm.simplifyAll as

end

def Program.simplify (p : Program) : Program :=
  { p with body := p.body.simplify }

end LolToolchain
