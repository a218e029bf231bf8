import LolToolchain.Proofs.Evaluation.Names
import LolToolchain.Proofs.Program.Numbrs

/-!
The two versions of a program, as it is written and folded. Both have the same definitions, which see the
same names, and so the functions of the one are the functions of the other with their bodies folded.
-/
namespace LolToolchain

namespace Expr

/-- An expression, folded or as it is written. -/
def folded (b : Bool) (x : Expr) : Expr :=
  if b then x.simplify else x

variable (b : Bool)

private theorem simplifyAll_eq_map (xs : List Expr) : simplifyAll xs = xs.map simplify := by
  induction xs with
  | nil => rfl
  | cons x xs ih => exact congrArg (x.simplify :: ·) ih

theorem map_folded (xs : List Expr) :
    xs.map (folded b) = if b then simplifyAll xs else xs := by
  cases b
  · exact List.map_id xs
  · exact (simplifyAll_eq_map xs).symm

variable (s : Span) (xs : List Expr) (x y : Expr)

@[simp] theorem folded_int (v : Int64) : (int s v).folded b = int s v := by cases b <;> rfl

@[simp] theorem folded_float (v : Numbar) : (float s v).folded b = float s v := by cases b <;> rfl

@[simp] theorem folded_string (t : Text) : (string s t).folded b = string s t := by cases b <;> rfl

@[simp] theorem folded_interp (t : Text) (ss : List Splice) :
    (interp s t ss).folded b = interp s t ss := by cases b <;> rfl

@[simp] theorem folded_bool (v : Bool) : (bool s v).folded b = bool s v := by cases b <;> rfl

@[simp] theorem folded_null : (null s).folded b = null s := by cases b <;> rfl

@[simp] theorem folded_it : (it s).folded b = it s := by cases b <;> rfl

@[simp] theorem folded_var (id : Ident) : (var s id).folded b = var s id := by cases b <;> rfl

@[simp] theorem folded_list : (list s xs).folded b = list s (xs.map (folded b)) := by
  rw [map_folded]; cases b <;> rfl

@[simp] theorem folded_call (id : Ident) :
    (call s id xs).folded b = call s id (xs.map (folded b)) := by
  rw [map_folded]; cases b <;> rfl

@[simp] theorem folded_concat : (concat s xs).folded b = concat s (xs.map (folded b)) := by
  rw [map_folded]; cases b <;> rfl

@[simp] theorem folded_nary (op : ListOp) :
    (nary s op xs).folded b = nary s op (xs.map (folded b)) := by
  rw [map_folded]; cases b <;> rfl

@[simp] theorem folded_cast (t : TypeName) : (cast s x t).folded b = cast s (x.folded b) t := by
  cases b <;> rfl

@[simp] theorem folded_unary (op : UnaryOp) : (unary s op x).folded b = unary s op (x.folded b) := by
  cases b <;> rfl

@[simp] theorem folded_pickAt : (pickAt s x y).folded b = pickAt s (x.folded b) (y.folded b) := by
  cases b <;> rfl

@[simp] theorem folded_pickFront : (pickFront s x).folded b = pickFront s (x.folded b) := by
  cases b <;> rfl

@[simp] theorem folded_pickBack : (pickBack s x).folded b = pickBack s (x.folded b) := by
  cases b <;> rfl

private theorem span_foldComparison (op : BinaryOp) : (foldComparison s op x y).span = s := by
  obtain hkept | ⟨m, other, matched, rest, hfolds⟩ := foldComparison_cases s op x y
  · rw [hkept]
    rfl
  · rw [hfolds.fold_eq, Extreme.ordering]
    split <;> rfl

@[simp] theorem span_folded : (x.folded b).span = x.span := by
  cases b with
  | false => rfl
  | true =>
    cases x with
    | binary s op a b => exact span_foldComparison s _ _ op
    | _ => rfl

end Expr

def Initial.folded (b : Bool) (i : Initial) : Initial :=
  if b then i.simplify else i

def LoopTest.folded (b : Bool) (t : LoopTest) : LoopTest :=
  if b then t.simplify else t

def LoopUpdate.folded (b : Bool) (u : LoopUpdate) : LoopUpdate :=
  if b then u.simplify else u

def Stmt.folded (b : Bool) (s : Stmt) : Stmt :=
  if b then s.simplify else s

def Block.folded (b : Bool) (block : Block) : Block :=
  if b then block.simplify else block

def Arm.folded (b : Bool) (arm : Arm) : Arm :=
  if b then arm.simplify else arm

def Program.folded (b : Bool) (p : Program) : Program :=
  if b then p.simplify else p

section

variable (b : Bool)

private theorem Stmt.simplifyAll_eq_map (ss : List Stmt) : Stmt.simplifyAll ss = ss.map Stmt.simplify := by
  induction ss with
  | nil => rfl
  | cons s ss ih => exact congrArg (s.simplify :: ·) ih

theorem Stmt.map_folded (ss : List Stmt) :
    ss.map (Stmt.folded b) = if b then Stmt.simplifyAll ss else ss := by
  cases b
  · exact List.map_id ss
  · exact (Stmt.simplifyAll_eq_map ss).symm

private theorem Arm.simplifyAll_eq_map (arms : List Arm) :
    Arm.simplifyAll arms = arms.map Arm.simplify := by
  induction arms with
  | nil => rfl
  | cons arm arms ih => exact congrArg (arm.simplify :: ·) ih

theorem Arm.map_folded (arms : List Arm) :
    arms.map (Arm.folded b) = if b then Arm.simplifyAll arms else arms := by
  cases b
  · exact List.map_id arms
  · exact (Arm.simplifyAll_eq_map arms).symm

theorem Block.map_folded (block : Option Block) :
    block.map (Block.folded b) = if b then Block.simplifyOption block else block := by
  cases b <;> cases block <;> rfl

theorem LoopUpdate.map_folded (u : Option LoopUpdate) :
    u.map (LoopUpdate.folded b) = if b then u.map LoopUpdate.simplify else u := by
  cases b <;> cases u <;> rfl

variable (s : Span) (id : Ident) (x y : Expr) (block : Option Block) (arms : List Arm)

@[simp] theorem Block.folded_mk (ss : List Stmt) :
    (Block.mk s ss).folded b = .mk s (ss.map (Stmt.folded b)) := by
  rw [Stmt.map_folded]; cases b <;> rfl

@[simp] theorem Arm.folded_mk (body : Block) :
    (Arm.mk x body).folded b = .mk (x.folded b) (body.folded b) := by cases b <;> rfl

namespace Stmt

@[simp] theorem folded_assign : (assign s id x).folded b = assign s id (x.folded b) := by
  cases b <;> rfl

@[simp] theorem folded_append : (append s id x).folded b = append s id (x.folded b) := by
  cases b <;> rfl

@[simp] theorem folded_declare (i : Initial) :
    (declare s id i).folded b = declare s id (i.folded b) := by cases b <;> rfl

@[simp] theorem folded_expr : (expr s x).folded b = expr s (x.folded b) := by cases b <;> rfl

@[simp] theorem folded_ret : (ret s x).folded b = ret s (x.folded b) := by cases b <;> rfl

@[simp] theorem folded_load : (load s id).folded b = load s id := by cases b <;> rfl

@[simp] theorem folded_cast (t : TypeName) : (cast s id t).folded b = cast s id t := by
  cases b <;> rfl

@[simp] theorem folded_leave : (leave s).folded b = leave s := by cases b <;> rfl

@[simp] theorem folded_read : (read s id).folded b = read s id := by cases b <;> rfl

@[simp] theorem folded_define (params : List Ident) (body : Block) :
    (define s id params body).folded b = define s id params (body.folded b) := by cases b <;> rfl

@[simp] theorem folded_switch : (switch s arms block).folded b =
    switch s (arms.map (Arm.folded b)) (block.map (Block.folded b)) := by
  rw [Arm.map_folded, Block.map_folded]; cases b <;> rfl

@[simp] theorem folded_branch (no : Option Block) : (branch s block arms no).folded b =
    branch s (block.map (Block.folded b)) (arms.map (Arm.folded b)) (no.map (Block.folded b)) := by
  rw [Arm.map_folded, Block.map_folded, Block.map_folded]; cases b <;> rfl

@[simp] theorem folded_loop (label : Ident) (u : Option LoopUpdate) (body : Block) :
    (loop s id label u body).folded b =
      loop s id label (u.map (LoopUpdate.folded b)) (body.folded b) := by
  rw [LoopUpdate.map_folded]; cases b <;> rfl

@[simp] theorem folded_print (xs : List Expr) (newline : Bool) :
    (print s xs newline).folded b = print s (xs.map (Expr.folded b)) newline := by
  rw [Expr.map_folded]; cases b <;> rfl

@[simp] theorem folded_store : (store s id x y).folded b = store s id (x.folded b) (y.folded b) := by
  cases b <;> rfl

end Stmt

@[simp] theorem LoopUpdate.folded_mk (change : LoopChange) (t : LoopTest) :
    (LoopUpdate.mk change id t).folded b = ⟨change, id, t.folded b⟩ := by cases b <;> rfl

@[simp] theorem LoopTest.folded_forever : LoopTest.forever.folded b = .forever := by cases b <;> rfl

@[simp] theorem LoopTest.folded_untilTrue :
    (LoopTest.untilTrue x).folded b = .untilTrue (x.folded b) := by cases b <;> rfl

@[simp] theorem LoopTest.folded_whileTrue :
    (LoopTest.whileTrue x).folded b = .whileTrue (x.folded b) := by cases b <;> rfl

@[simp] theorem Initial.folded_absent : Initial.absent.folded b = .absent := by cases b <;> rfl

@[simp] theorem Initial.folded_typed (t : TypeName) : (Initial.typed t).folded b = .typed t := by
  cases b <;> rfl

@[simp] theorem Initial.folded_value : (Initial.value x).folded b = .value (x.folded b) := by
  cases b <;> rfl

/-- Folding does not change which variable a loop has. -/
theorem LoopUpdate.map_counter (u : Option LoopUpdate) :
    ((u.map (LoopUpdate.folded b)).toList.map fun u => (u.counter.name, (none : Option Nat))) =
      u.toList.map fun u => (u.counter.name, none) := by
  cases b <;> cases u <;> rfl

mutual

/-- Folding changes no definition. -/
theorem Stmt.definitions_folded : ∀ s : Stmt, (s.folded b).definitions = s.definitions
  | .define _ _ _ (.mk _ body) => by
    simp only [Stmt.folded_define, Block.folded_mk, Stmt.definitions, Stmt.definitionsAll_folded body]
  | .switch _ arms otherwise => by
    simp only [Stmt.folded_switch, Stmt.definitions, Arm.definitionsAll_folded arms,
      Block.definitionsOption_folded otherwise]
  | .branch _ yes arms no => by
    simp only [Stmt.folded_branch, Stmt.definitions, Arm.definitionsAll_folded arms,
      Block.definitionsOption_folded yes, Block.definitionsOption_folded no]
  | .loop _ _ _ _ (.mk _ body) => by
    simp only [Stmt.folded_loop, Block.folded_mk, Stmt.definitions, Stmt.definitionsAll_folded body]
  | .assign _ _ _ | .declare _ _ _ | .load _ _ | .expr _ _ | .cast _ _ _ | .leave _ | .ret _ _
  | .print _ _ _ | .read _ _ | .append _ _ _ | .store _ _ _ _ => by cases b <;> rfl

theorem Stmt.definitionsAll_folded : ∀ ss : List Stmt,
    Stmt.definitionsAll (ss.map (Stmt.folded b)) = Stmt.definitionsAll ss
  | [] => rfl
  | s :: ss => by
    rw [List.map_cons, Stmt.definitionsAll, Stmt.definitionsAll, Stmt.definitions_folded s,
      Stmt.definitionsAll_folded ss]

theorem Block.definitionsOption_folded : ∀ block : Option Block,
    Block.definitionsOption (block.map (Block.folded b)) = Block.definitionsOption block
  | none => rfl
  | some (.mk _ body) => by
    simp only [Option.map_some, Block.folded_mk, Block.definitionsOption, Stmt.definitionsAll_folded body]

theorem Arm.definitionsAll_folded : ∀ arms : List Arm,
    Arm.definitionsAll (arms.map (Arm.folded b)) = Arm.definitionsAll arms
  | [] => rfl
  | .mk _ (.mk _ body) :: arms => by
    simp only [List.map_cons, Arm.folded_mk, Block.folded_mk, Arm.definitionsAll,
      Stmt.definitionsAll_folded body, Arm.definitionsAll_folded arms]

end

variable (address : Nat → Nat)

mutual

/-- Folding changes no name. -/
theorem Stmt.names_folded : ∀ (s : Stmt) (k : Nat) (ns : Names),
    (s.folded b).names address k ns = s.names address k ns
  | .switch _ arms otherwise, k, ns => by
    simp only [Stmt.folded_switch, Stmt.names, Arm.definitionsAll_folded, Arm.namesAll_folded arms,
      Block.namesOption_folded otherwise]
  | .branch _ yes arms no, k, ns => by
    simp only [Stmt.folded_branch, Stmt.names, Arm.definitionsAll_folded, Block.definitionsOption_folded,
      Arm.namesAll_folded arms, Block.namesOption_folded yes, Block.namesOption_folded no]
  | .loop _ _ _ update (.mk _ body), k, ns => by
    simp only [Stmt.folded_loop, Block.folded_mk, Stmt.names, LoopUpdate.map_counter,
      Stmt.namesAll_folded body]
  | .define _ _ _ _, _, _ | .assign _ _ _, _, _ | .declare _ _ _, _, _ | .load _ _, _, _
  | .expr _ _, _, _ | .cast _ _ _, _, _ | .leave _, _, _ | .ret _ _, _, _ | .print _ _ _, _, _
  | .read _ _, _, _ | .append _ _ _, _, _ | .store _ _ _ _, _, _ => by cases b <;> rfl

theorem Stmt.namesAll_folded : ∀ (ss : List Stmt) (k : Nat) (ns : Names),
    Stmt.namesAll address k (ss.map (Stmt.folded b)) ns = Stmt.namesAll address k ss ns
  | [], _, _ => rfl
  | s :: ss, k, ns => by
    rw [List.map_cons, Stmt.namesAll, Stmt.namesAll, Stmt.definitions_folded, Stmt.names_folded s,
      Stmt.namesAll_folded ss]

theorem Block.namesOption_folded : ∀ (block : Option Block) (k : Nat) (ns : Names),
    Block.namesOption address k (block.map (Block.folded b)) ns =
      Block.namesOption address k block ns
  | none, _, _ => rfl
  | some (.mk _ body), k, ns => by
    simp only [Option.map_some, Block.folded_mk, Block.namesOption, Stmt.namesAll_folded body]

theorem Arm.namesAll_folded : ∀ (arms : List Arm) (k : Nat) (ns : Names),
    Arm.namesAll address k (arms.map (Arm.folded b)) ns = Arm.namesAll address k arms ns
  | [], _, _ => rfl
  | .mk _ (.mk _ body) :: arms, k, ns => by
    simp only [List.map_cons, Arm.folded_mk, Block.folded_mk, Arm.namesAll, Stmt.definitionsAll_folded,
      Stmt.namesAll_folded body, Arm.namesAll_folded arms]

end

end

/-- A function, with its body folded or as it is written. -/
def Function.folded (b : Bool) (f : Function) : Function :=
  { f with body := f.body.map (Stmt.folded b) }

section

variable (b : Bool) (address : Nat → Nat)

mutual

/-- The functions of a statement are those of the other version with their bodies folded. -/
theorem Stmt.functions_folded : ∀ (s : Stmt) (outer : List Names) (k : Nat) (ns : Names),
    (s.folded b).functions address outer k ns =
      (s.functions address outer k ns).map (Function.folded b)
  | .define _ _ _ (.mk _ body), outer, k, ns => by
    simp only [Stmt.folded_define, Block.folded_mk, Stmt.functions, List.map_cons, Function.folded,
      Stmt.functionsAll_folded body]
  | .switch _ arms otherwise, outer, k, ns => by
    simp only [Stmt.folded_switch, Stmt.functions, List.map_append, Arm.definitionsAll_folded,
      Arm.namesAll_folded, Arm.functionsAll_folded arms, Block.functionsOption_folded otherwise]
  | .branch _ yes arms no, outer, k, ns => by
    simp only [Stmt.folded_branch, Stmt.functions, List.map_append, Arm.definitionsAll_folded,
      Block.definitionsOption_folded, Arm.namesAll_folded, Block.namesOption_folded,
      Arm.functionsAll_folded arms, Block.functionsOption_folded yes,
      Block.functionsOption_folded no]
  | .loop _ _ _ update (.mk _ body), outer, k, ns => by
    simp only [Stmt.folded_loop, Block.folded_mk, Stmt.functions, LoopUpdate.map_counter,
      Stmt.functionsAll_folded body]
  | .assign _ _ _, _, _, _ | .declare _ _ _, _, _, _ | .load _ _, _, _, _ | .expr _ _, _, _, _
  | .cast _ _ _, _, _, _ | .leave _, _, _, _ | .ret _ _, _, _, _ | .print _ _ _, _, _, _
  | .read _ _, _, _, _ | .append _ _ _, _, _, _ | .store _ _ _ _, _, _, _ => by cases b <;> rfl

theorem Stmt.functionsAll_folded : ∀ (ss : List Stmt) (outer : List Names) (k : Nat) (ns : Names),
    Stmt.functionsAll address outer k (ss.map (Stmt.folded b)) ns =
      (Stmt.functionsAll address outer k ss ns).map (Function.folded b)
  | [], _, _, _ => rfl
  | s :: ss, outer, k, ns => by
    simp only [List.map_cons, Stmt.functionsAll, List.map_append, Stmt.definitions_folded,
      Stmt.names_folded, Stmt.functions_folded s, Stmt.functionsAll_folded ss]

theorem Block.functionsOption_folded : ∀ (block : Option Block) (outer : List Names) (k : Nat)
    (ns : Names), Block.functionsOption address outer k (block.map (Block.folded b)) ns =
      (Block.functionsOption address outer k block ns).map (Function.folded b)
  | none, _, _, _ => rfl
  | some (.mk _ body), outer, k, ns => by
    simp only [Option.map_some, Block.folded_mk, Block.functionsOption, Stmt.functionsAll_folded body]

theorem Arm.functionsAll_folded : ∀ (arms : List Arm) (outer : List Names) (k : Nat) (ns : Names),
    Arm.functionsAll address outer k (arms.map (Arm.folded b)) ns =
      (Arm.functionsAll address outer k arms ns).map (Function.folded b)
  | [], _, _, _ => rfl
  | .mk _ (.mk _ body) :: arms, outer, k, ns => by
    simp only [List.map_cons, Arm.folded_mk, Block.folded_mk, Arm.functionsAll, List.map_append,
      Stmt.definitionsAll_folded, Stmt.namesAll_folded, Stmt.functionsAll_folded body,
      Arm.functionsAll_folded arms]

end

/-- The statements of a version of a program. -/
theorem Program.stmts_folded (p : Program) :
    (p.folded b).body.stmts = p.body.stmts.map (Stmt.folded b) := by
  obtain ⟨span, version, _, ss⟩ := p
  change _ = ss.map (Stmt.folded b)
  rw [Stmt.map_folded]
  cases b <;> rfl

theorem Program.functions_folded (p : Program) :
    (p.folded b).functions address = (p.functions address).map (Function.folded b) := by
  rw [functions, stmts_folded]
  exact Stmt.functionsAll_folded b address p.body.stmts [] 0 []

end
end LolToolchain
