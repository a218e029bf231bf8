import LolToolchain.Program.Tree

/-! The statements of a program in the order in which they are written. -/
namespace LolToolchain

mutual

/-- A statement and, if `enter` says so, the statements inside it. -/
def Stmt.walk (enter : Stmt → Bool) (s : Stmt) : List Stmt :=
  s :: if enter s then
    match s with
    | .define _ _ _ b => b.walk enter
    | .loop _ _ _ _ b => b.walk enter
    | .switch _ arms other => Arm.walkAll enter arms ++ Block.walkOption enter other
    | .branch _ yes arms no =>
      Block.walkOption enter yes ++ Arm.walkAll enter arms ++ Block.walkOption enter no
    | _ => []
  else []

def Block.walk (enter : Stmt → Bool) (b : Block) : List Stmt :=
  match b with
  | .mk _ ss => Stmt.walkAll enter ss

def Stmt.walkAll (enter : Stmt → Bool) (ss : List Stmt) : List Stmt :=
  match ss with
  | [] => []
  | s :: rest => s.walk enter ++ Stmt.walkAll enter rest

def Block.walkOption (enter : Stmt → Bool) (b : Option Block) : List Stmt :=
  match b with
  | none => []
  | some b => b.walk enter

def Arm.walkAll (enter : Stmt → Bool) (arms : List Arm) : List Stmt :=
  match arms with
  | [] => []
  | .mk _ b :: rest => b.walk enter ++ Arm.walkAll enter rest

end

end LolToolchain
