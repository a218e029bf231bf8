import LolToolchain.Numbar.Basic
import LolToolchain.Source.Span

/-!
Program trees. Every node keeps the span of source text it was read from.
-/
namespace LolToolchain

structure Ident where
  name : Text
  span : Span
  deriving DecidableEq, Repr, Inhabited

inductive TypeName where
  | noob
  | troof
  | numbr
  | numbar
  | yarn
  | bukkit
  deriving DecidableEq, Repr, Inhabited

namespace TypeName

def all : List TypeName := [.noob, .troof, .numbr, .numbar, .yarn, .bukkit]

def code : TypeName → UInt8
  | .noob => 0
  | .troof => 1
  | .numbr => 2
  | .numbar => 3
  | .yarn => 4
  | .bukkit => 5

def ofCode? (n : UInt8) : Option TypeName :=
  all[n.toNat]?

def name : TypeName → Text
  | .noob => "NOOB"
  | .troof => "TROOF"
  | .numbr => "NUMBR"
  | .numbar => "NUMBAR"
  | .yarn => "YARN"
  | .bukkit => "BUKKIT"

/-- The name of the type with a number; numbers without a type are shown as they are. -/
def nameOfCode (n : UInt8) : Text :=
  match ofCode? n with
  | some t => t.name
  | none => "ValueType(" ++ Text.ofNat n.toNat ++ ")"

end TypeName

/-- Operators with two operands. The four orderings have no source form of their own; the
simplifier brings them in. -/
inductive BinaryOp where
  | add | sub | mul | div | mod | min | max
  | and | or | xor
  | equal | notEqual
  | gt | lt | ge | le
  deriving DecidableEq, Repr, Inhabited

namespace BinaryOp

def all : List BinaryOp :=
  [.add, .sub, .mul, .div, .mod, .min, .max, .and, .or, .xor, .equal, .notEqual,
    .gt, .lt, .ge, .le]

def name : BinaryOp → Text
  | .add => "Add"
  | .sub => "Sub"
  | .mul => "Mul"
  | .div => "Div"
  | .mod => "Mod"
  | .min => "Min"
  | .max => "Max"
  | .and => "And"
  | .or => "Or"
  | .xor => "Xor"
  | .equal => "Equal"
  | .notEqual => "NotEq"
  | .gt => "GT"
  | .lt => "LT"
  | .ge => "GTE"
  | .le => "LTE"

def nameOfCode (n : UInt8) : Text :=
  match all[n.toNat]? with
  | some op => op.name
  | none => "OpTy(" ++ Text.ofNat n.toNat ++ ")"

end BinaryOp

inductive ListOp where
  | all
  | any
  deriving DecidableEq, Repr, Inhabited

inductive UnaryOp where
  | not
  | length
  deriving DecidableEq, Repr, Inhabited

/-- A variable named inside a string literal; `offset` is a place in the literal's text. -/
structure Splice where
  offset : Nat
  name : Ident
  deriving DecidableEq, Repr, Inhabited

inductive Expr where
  | int (span : Span) (value : Int64)
  | float (span : Span) (value : Numbar)
  | string (span : Span) (text : Text)
  | interp (span : Span) (text : Text) (splices : List Splice)
  | bool (span : Span) (value : Bool)
  | list (span : Span) (elems : List Expr)
  | null (span : Span)
  | it (span : Span)
  | var (span : Span) (name : Ident)
  | call (span : Span) (name : Ident) (args : List Expr)
  | concat (span : Span) (parts : List Expr)
  | cast (span : Span) (operand : Expr) (target : TypeName)
  | binary (span : Span) (op : BinaryOp) (left right : Expr)
  | nary (span : Span) (op : ListOp) (operands : List Expr)
  | unary (span : Span) (op : UnaryOp) (operand : Expr)
  | pickAt (span : Span) (index source : Expr)
  | pickFront (span : Span) (source : Expr)
  | pickBack (span : Span) (source : Expr)
  deriving Inhabited

def Expr.span : Expr → Span
  | .int s _ | .float s _ | .string s _ | .interp s _ _ | .bool s _ | .list s _ | .null s | .it s
  | .var s _ | .call s _ _ | .concat s _ | .cast s _ _ | .binary s _ _ _ | .nary s _ _
  | .unary s _ _ | .pickAt s _ _ | .pickFront s _ | .pickBack s _ => s

/-- What a declared variable starts with. -/
inductive Initial where
  | absent
  | value (e : Expr)
  | typed (t : TypeName)
  deriving Inhabited

/-- How a loop changes its variable after each pass. -/
inductive LoopChange where
  | up
  | down
  | apply (function : Ident)
  deriving DecidableEq, Repr, Inhabited

inductive LoopTest where
  | forever
  | untilTrue (test : Expr)
  | whileTrue (test : Expr)
  deriving Inhabited

structure LoopUpdate where
  change : LoopChange
  counter : Ident
  test : LoopTest
  deriving Inhabited

mutual

inductive Stmt where
  | assign (span : Span) (target : Ident) (value : Expr)
  | declare (span : Span) (name : Ident) (initial : Initial)
  | load (span : Span) (name : Ident)
  | define (span : Span) (name : Ident) (params : List Ident) (body : Block)
  | expr (span : Span) (value : Expr)
  | switch (span : Span) (arms : List Arm) (otherwise : Option Block)
  | branch (span : Span) (yes : Option Block) (arms : List Arm) (no : Option Block)
  | cast (span : Span) (name : Ident) (target : TypeName)
  | leave (span : Span)
  | loop (span : Span) (label endLabel : Ident) (update : Option LoopUpdate) (body : Block)
  | ret (span : Span) (value : Expr)
  | print (span : Span) (args : List Expr) (newline : Bool)
  | read (span : Span) (target : Ident)
  | append (span : Span) (target : Ident) (value : Expr)
  | store (span : Span) (target : Ident) (index value : Expr)

inductive Block where
  | mk (span : Span) (stmts : List Stmt)

/-- An expression that is tested, and what follows if the test succeeds. -/
inductive Arm where
  | mk (test : Expr) (body : Block)

end

instance : Inhabited Block := ⟨⟨.zero, []⟩⟩
instance : Inhabited Stmt := ⟨.leave .zero⟩

def Stmt.span : Stmt → Span
  | .assign s _ _ | .declare s _ _ | .load s _ | .define s _ _ _ | .expr s _ | .switch s _ _
  | .branch s _ _ _ | .cast s _ _ | .leave s | .loop s _ _ _ _ | .ret s _ | .print s _ _
  | .read s _ | .append s _ _ | .store s _ _ _ => s

def Block.span : Block → Span
  | .mk s _ => s

def Block.stmts : Block → List Stmt
  | .mk _ ss => ss

def Arm.test : Arm → Expr
  | .mk e _ => e

def Arm.body : Arm → Block
  | .mk _ b => b

structure Program where
  span : Span
  version : Text
  body : Block
  deriving Inhabited

end LolToolchain
