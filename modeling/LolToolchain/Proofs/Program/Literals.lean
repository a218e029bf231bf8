import LolToolchain.Bytecode.Value
import LolToolchain.Program.Tree

/-!
The literals of a program: the numbers, strings and templates that are written in it.
-/
namespace LolToolchain

/-- The template of a string literal. -/
def Splice.template (text : Text) (splices : List Splice) : Template :=
  ⟨text, splices.map fun x => x.offset, 0⟩

namespace Expr

mutual

/-- The literals of an expression. -/
def literals : Expr → List Value
  | .int _ v => [.numbr v]
  | .float _ v => [.numbar v]
  | .string _ t => [.yarn t]
  | .interp _ t splices => [.interp (some (Splice.template t splices))]
  | .bool _ _ | .null _ | .it _ | .var _ _ => []
  | .list _ xs | .call _ _ xs | .concat _ xs | .nary _ _ xs => literalsAll xs
  | .cast _ x _ | .unary _ _ x | .pickFront _ x | .pickBack _ x => literals x
  | .binary _ _ x y | .pickAt _ x y => literals x ++ literals y

def literalsAll : List Expr → List Value
  | [] => []
  | x :: xs => literals x ++ literalsAll xs

end

end Expr

def Initial.literals : Initial → List Value
  | .value e => e.literals
  | .absent | .typed _ => []

def LoopTest.literals : LoopTest → List Value
  | .forever => []
  | .untilTrue e | .whileTrue e => e.literals

def LoopUpdate.literals : Option LoopUpdate → List Value
  | none => []
  | some u => u.test.literals

mutual

/-- The literals of a statement. -/
def Stmt.literals : Stmt → List Value
  | .assign _ _ x | .expr _ x | .ret _ x | .append _ _ x => x.literals
  | .declare _ _ initial => initial.literals
  | .load _ _ | .cast _ _ _ | .leave _ | .read _ _ => []
  | .define _ _ _ (.mk _ body) => Stmt.literalsAll body
  | .switch _ arms otherwise => Arm.literalsAll arms ++ Block.literalsOption otherwise
  | .branch _ yes arms no =>
    Block.literalsOption yes ++ (Arm.literalsAll arms ++ Block.literalsOption no)
  | .loop _ _ _ update (.mk _ body) => LoopUpdate.literals update ++ Stmt.literalsAll body
  | .print _ args _ => Expr.literalsAll args
  | .store _ _ i x => i.literals ++ x.literals

def Stmt.literalsAll : List Stmt → List Value
  | [] => []
  | s :: ss => Stmt.literals s ++ Stmt.literalsAll ss

def Block.literalsOption : Option Block → List Value
  | none => []
  | some (.mk _ body) => Stmt.literalsAll body

def Arm.literalsAll : List Arm → List Value
  | [] => []
  | .mk test (.mk _ body) :: arms =>
    test.literals ++ (Stmt.literalsAll body ++ Arm.literalsAll arms)

end

def Program.literals (p : Program) : List Value :=
  Stmt.literalsAll p.body.stmts

end LolToolchain
