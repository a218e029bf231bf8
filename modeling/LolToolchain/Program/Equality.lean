import LolToolchain.Program.Tree

/-! Expressions compared without regard to where they stand, and the calls in them. -/
namespace LolToolchain

def Splice.same (a b : Splice) : Bool :=
  a.offset == b.offset && a.name.name == b.name.name

def Splice.sameAll : List Splice → List Splice → Bool
  | [], [] => true
  | a :: as, b :: bs => a.same b && sameAll as bs
  | _, _ => false

namespace Expr

mutual

/-- Whether two expressions are the same apart from their spans. Numbers are compared by value. -/
def same : Expr → Expr → Bool
  | .int _ a, .int _ b => a == b
  | .float _ a, .float _ b => a.equal b
  | .string _ a, .string _ b => a == b
  | .interp _ a as, .interp _ b bs => a == b && Splice.sameAll as bs
  | .bool _ a, .bool _ b => a == b
  | .list _ as, .list _ bs => sameAll as bs
  | .null _, .null _ => true
  | .it _, .it _ => true
  | .var _ a, .var _ b => a.name == b.name
  | .call _ a as, .call _ b bs => a.name == b.name && sameAll as bs
  | .concat _ as, .concat _ bs => sameAll as bs
  | .cast _ a s, .cast _ b t => s == t && same a b
  | .binary _ o a c, .binary _ p b d => o == p && same a b && same c d
  | .nary _ o as, .nary _ p bs => o == p && sameAll as bs
  | .unary _ o a, .unary _ p b => o == p && same a b
  | .pickAt _ i a, .pickAt _ j b => same i j && same a b
  | .pickFront _ a, .pickFront _ b => same a b
  | .pickBack _ a, .pickBack _ b => same a b
  | _, _ => false

def sameAll : List Expr → List Expr → Bool
  | [], [] => true
  | a :: as, b :: bs => same a b && sameAll as bs
  | _, _ => false

end

mutual

/-- Whether an expression contains a call, so that evaluating it may do more than give a value. -/
def hasCall : Expr → Bool
  | .call _ _ _ => true
  | .list _ xs | .concat _ xs | .nary _ _ xs => anyCall xs
  | .cast _ x _ | .unary _ _ x | .pickFront _ x | .pickBack _ x => hasCall x
  | .binary _ _ a b | .pickAt _ a b => hasCall a || hasCall b
  | .int _ _ | .float _ _ | .string _ _ | .interp _ _ _ | .bool _ _ | .null _ | .it _
  | .var _ _ => false

def anyCall : List Expr → Bool
  | [] => false
  | x :: xs => hasCall x || anyCall xs

end

end Expr
end LolToolchain
