import LolToolchain.Pipeline
import LolToolchain.Proofs.Program.Erasure
import LolToolchain.Proofs.Token.Items
import Mathlib.Data.List.Forall2
import LolToolchain.Text.CommonNames

/-!
Layout does not change the code. The compiler puts the spans of a program beside the bytes of its
code and into its diagnostics, and nowhere else; so two texts with the same tokens, however they are
laid out and in whatever file, have the same code and constants, or the same fault.
-/
namespace LolToolchain

open Diagnostic (erased)

/-- A chunk whose bytes stand nowhere in particular. -/
def Chunk.unspanned (c : Chunk) : Chunk :=
  { c with positions := c.positions.map fun _ => .zero }

def Assembly.unspanned (a : Assembly) : Assembly :=
  { a with chunk := a.chunk.unspanned }

namespace Chunk

theorem unspanned_emitByte (c : Chunk) (op : UInt8) (operand : List UInt8) (s : Span) :
    (c.emitByte op operand s).unspanned = c.unspanned.emitByte op operand .zero := by
  have hpositions : (c.positions ++ List.replicate (operand.length + 1) s).map
        (fun _ => Span.zero) =
      c.positions.map (fun _ => Span.zero) ++ List.replicate (operand.length + 1) Span.zero := by
    apply Array.toList_inj.1
    rw [Array.toList_map, Array.toList_appendList, Array.toList_appendList, Array.toList_map,
      List.map_append, List.map_replicate]
  rw [unspanned, emitByte, hpositions]
  rfl

theorem emitIndexed_unspanned (c : Chunk) (short long : Opcode) (n : Nat) (s : Span) :
    c.unspanned.emitIndexed short long n .zero =
      (c.emitIndexed short long n s).map Chunk.unspanned := by
  rw [emitIndexed, emitIndexed, emitIndexedByte, emitIndexedByte]
  split
  · rfl
  · split
    · exact congrArg Except.ok (c.unspanned_emitByte _ _ s).symm
    · exact congrArg Except.ok (c.unspanned_emitByte _ _ s).symm

theorem unspanned_patchTo (c : Chunk) (offset : Nat) (target : Int) :
    (c.patchTo offset target).unspanned = c.unspanned.patchTo offset target := by
  dsimp only [unspanned, patchTo]

theorem unspanned_emitLoop (c : Chunk) (start : Int) (s : Span) :
    (c.emitLoop start s).unspanned = c.unspanned.emitLoop start .zero := by
  dsimp only [emitLoop, emitJump, emit]
  rw [unspanned_patchTo, unspanned_emitByte]
  rfl

end Chunk

namespace Assemble

/-- `y` does without spans what `x` does with them. -/
def Erases {α : Type} (x y : Assemble α) : Prop :=
  ∀ a : Assembly, y a.unspanned = erased (fun r => (r.1, r.2.unspanned)) (x a)

namespace Erases

variable {α β : Type} {x x' : Assemble α} {f f' : α → Assemble β} {span : Span} {id : Ident}

theorem pure {r : α} : Erases (pure r) (pure r) :=
  fun _ => rfl

theorem bind (hx : Erases x x') (hf : ∀ r, Erases (f r) (f' r)) :
    Erases (x >>= f) (x' >>= f') := by
  intro a
  change (x' a.unspanned >>= fun r => f' r.1 r.2) = erased _ (x a >>= fun r => f r.1 r.2)
  rw [hx a]
  cases x a with
  | error d => rfl
  | ok r => exact hf r.1 r.2

theorem fail {fault : CompileFault} : Erases (fail fault span : Assemble α) (fail fault .zero) :=
  fun _ => rfl

theorem ite {p : Prop} [Decidable p] {y y' : Assemble α} (hx : Erases x x') (hy : Erases y y') :
    Erases (if p then x else y) (if p then x' else y') := by
  split
  · exact hx
  · exact hy

/-- A step that does the same to the chunk without spans. -/
theorem modify {g g' : Assembly → Assembly}
    (h : ∀ a : Assembly, g' a.unspanned = (g a).unspanned) : Erases (modify g) (modify g') :=
  fun a => congrArg (fun b => Except.ok ((), b)) (h a)

/-- Work on the assembly as it is. -/
theorem get_bind {f f' : Assembly → Assemble β}
    (h : ∀ a : Assembly,
      f' a.unspanned a.unspanned = erased (fun r => (r.1, r.2.unspanned)) (f a a)) :
    Erases (get >>= f) (get >>= f') :=
  h

theorem updateScope {g : Scope → Scope} : Erases (updateScope g) (updateScope g) :=
  modify fun _ => rfl

theorem scope : Erases scope scope :=
  fun _ => rfl

theorem here : Erases here here :=
  fun _ => rfl

theorem emit {op : Opcode} {operand : List UInt8} :
    Erases (emit op span operand) (emit op .zero operand) :=
  modify fun a => congrArg (fun c => ({ a with chunk := c } : Assembly))
    (a.chunk.unspanned_emitByte _ _ span).symm

/-- Adds an operation with an operand that may be too large. -/
theorem indexed {short long : Opcode} {n : Nat} {fault : OperandFault → CompileFault} :
    Erases (do
      let a ← get
      match a.chunk.emitIndexed short long n span with
      | .ok chunk => set { a with chunk }
      | .error f => Assemble.fail (fault f) span : Assemble Unit) (do
      let a ← get
      match a.chunk.emitIndexed short long n .zero with
      | .ok chunk => set { a with chunk }
      | .error f => Assemble.fail (fault f) .zero) := by
  refine get_bind fun a => ?_
  dsimp only [Assembly.unspanned]
  rw [a.chunk.emitIndexed_unspanned short long n span]
  cases a.chunk.emitIndexed short long n span <;> rfl

theorem emitIndexed {short long : Opcode} {n : Nat} :
    Erases (emitIndexed short long n span) (emitIndexed short long n .zero) :=
  indexed

theorem constant {v : Value} : Erases (constant v) (constant v) :=
  fun _ => rfl

theorem emitConstant {v : Value} : Erases (emitConstant v span) (emitConstant v .zero) :=
  constant.bind fun _ => indexed

theorem emitPops {n : Nat} : Erases (emitPops n span) (emitPops n .zero) :=
  ite pure emitIndexed

theorem emitJump {op : Opcode} : Erases (emitJump op span) (emitJump op .zero) :=
  fun a => congrArg (fun c => Except.ok (_, ({ a with chunk := c } : Assembly)))
    (a.chunk.unspanned_emitByte _ _ span).symm

theorem patch {j : Nat} : Erases (patch j) (patch j) :=
  modify fun a => congrArg (fun c => ({ a with chunk := c } : Assembly))
    (a.chunk.unspanned_patchTo j _).symm

theorem patchAll {js : List Nat} : Erases (patchAll js) (patchAll js) := by
  induction js with
  | nil => exact pure
  | cons j js ih => exact patch.bind fun _ => ih

theorem patchOption {j : Option Nat} : Erases (patchOption j) (patchOption j) := by
  cases j with
  | none => exact pure
  | some j => exact patch

theorem emitLoop {start : Nat} : Erases (emitLoop start span) (emitLoop start .zero) :=
  modify fun a => congrArg (fun c => ({ a with chunk := c } : Assembly))
    (a.chunk.unspanned_emitLoop _ span).symm

theorem closeScope : Erases (closeScope span) (closeScope .zero) :=
  scope.bind fun _ => updateScope.bind fun _ => emitPops

theorem closeBreakable : Erases closeBreakable closeBreakable := by
  refine scope.bind fun s => ?_
  split
  · exact pure
  · exact patchAll.bind fun _ => updateScope

theorem resolve : Erases (resolve id) (resolve id.unspanned) := by
  refine get_bind fun a => ?_
  dsimp only [Assembly.unspanned, Ident.unspanned]
  cases a.scope.resolve a.outer id.name <;> rfl

theorem readName : Erases (readName id) (readName id.unspanned) := by
  refine ite emit (resolve.bind fun b => ?_)
  cases b with
  | slot n f => exact emitIndexed
  | outer f => exact emitConstant

theorem writeName : Erases (writeName id) (writeName id.unspanned) := by
  refine ite emit (resolve.bind fun b => ?_)
  cases b with
  | slot n f => exact updateScope.bind fun _ => emitIndexed
  | outer f => exact fail

theorem readCallee {argc : Nat} : Erases (readCallee id argc) (readCallee id.unspanned argc) := by
  refine ite fail (ite (resolve.bind fun b => ?_) readName)
  cases b.function? with
  | none => exact readName
  | some f => exact ite fail readName

theorem leave : Erases (leave span) (leave .zero) := by
  refine scope.bind fun s => ?_
  cases s.breakables with
  | nil => exact fail
  | cons b rest =>
    dsimp only
    split
    · exact emitConstant.bind fun _ => emit
    · exact emitPops.bind fun _ => emitJump.bind fun _ => updateScope

end Erases
end Assemble

open Assemble

private theorem Splice.erases_readAll : ∀ {ss : List Splice},
    Erases (Splice.readAll ss) (Splice.readAll (ss.map unspanned))
  | [] => Erases.pure
  | _ :: _ => Erases.readName.bind fun _ => erases_readAll

namespace Expr

theorem length_unspannedAll (xs : List Expr) : (unspannedAll xs).length = xs.length := by
  induction xs with
  | nil => rfl
  | cons x xs ih => exact congrArg (· + 1) ih

mutual

/-- The code of an expression. -/
theorem erases : ∀ {x : Expr}, Erases x.assemble x.unspanned.assemble
  | .int _ _ | .float _ _ | .string _ _ | .bool _ _ | .null _ => Erases.emitConstant
  | .it _ => Erases.emit
  | .var _ _ => Erases.readName
  | .interp s t ss => by
    have hoffsets : (ss.map Splice.unspanned).map (fun x => (x.offset : Int)) =
        ss.map fun x => (x.offset : Int) := by
      rw [List.map_map]
      rfl
    rw [unspanned, assemble, assemble, hoffsets]
    exact Splice.erases_readAll.bind fun _ => Erases.constant.bind fun _ => Erases.emitIndexed
  | .list _ xs => by
    rw [unspanned, assemble, assemble, length_unspannedAll]
    exact erasesAll.bind fun _ => Erases.emitIndexed
  | .call _ _ xs => by
    rw [unspanned, assemble, assemble, length_unspannedAll]
    exact Erases.readCallee.bind fun _ => erasesAll.bind fun _ => Erases.emit
  | .concat _ [] | .nary _ _ [] => Erases.emitConstant
  | .concat _ [_] => Erases.emitConstant.bind fun _ => erases.bind fun _ => Erases.emit
  | .concat _ (_ :: _ :: _) | .nary _ _ (_ :: _ :: _) => erases.bind fun _ => erasesEach
  | .nary _ _ [_] | .cast _ _ _ | .unary _ _ _ | .pickFront _ _ | .pickBack _ _ =>
    erases.bind fun _ => Erases.emit
  | .binary _ _ _ _ | .pickAt _ _ _ => erases.bind fun _ => erases.bind fun _ => Erases.emit

theorem erasesAll : ∀ {xs : List Expr}, Erases (assembleAll xs) (assembleAll (unspannedAll xs))
  | [] => Erases.pure
  | _ :: _ => erases.bind fun _ => erasesAll

theorem erasesEach {op : Opcode} {span : Span} : ∀ {xs : List Expr},
    Erases (assembleEach op span xs) (assembleEach op .zero (unspannedAll xs))
  | [] => Erases.pure
  | _ :: _ => erases.bind fun _ => Erases.emit.bind fun _ => erasesEach

end

theorem span_unspanned (x : Expr) : x.unspanned.span = .zero := by
  cases x <;> rfl

private theorem erasesJoined : ∀ {xs : List Expr},
    Erases (assembleJoined xs) (assembleJoined (unspannedAll xs))
  | [] => Erases.pure
  | x :: _ => erases.bind fun _ => by
    rw [x.span_unspanned]
    exact Erases.emit.bind fun _ => erasesJoined

end Expr

section

variable {span : Span}

theorem Initial.erases {i : Initial} : Erases (i.assemble span) (i.unspanned.assemble .zero) := by
  cases i with
  | absent => exact Erases.emitConstant
  | value e => exact e.erases
  | typed t =>
    cases t with
    | bukkit => exact Erases.emit
    | _ => exact Erases.emitConstant

theorem erases_assemblePrinted {args : List Expr} :
    Erases (assemblePrinted span args) (assemblePrinted .zero (Expr.unspannedAll args)) := by
  cases args with
  | nil => exact Erases.emitConstant
  | cons x xs => exact x.erases.bind fun _ => Expr.erasesJoined

theorem LoopTest.erases {t : LoopTest} : Erases t.assemble t.unspanned.assemble := by
  cases t with
  | forever => exact Erases.pure
  | untilTrue e =>
    refine e.erases.bind fun _ => ?_
    rw [e.span_unspanned]
    exact Erases.emit.bind fun _ => Erases.emitJump.bind fun _ => Erases.pure
  | whileTrue e =>
    refine e.erases.bind fun _ => ?_
    rw [e.span_unspanned]
    exact Erases.emitJump.bind fun _ => Erases.pure

theorem LoopUpdate.erases {u : LoopUpdate} {slot : Nat} :
    Erases (u.assembleChange slot) (u.unspanned.assembleChange slot) := by
  obtain ⟨change, counter, test⟩ := u
  cases change with
  | up | down =>
    exact Erases.emitIndexed.bind fun _ => Erases.emitConstant.bind fun _ =>
      Erases.emit.bind fun _ => Erases.emitIndexed
  | apply f =>
    exact Erases.readCallee.bind fun _ => Erases.emitIndexed.bind fun _ =>
      Erases.emit.bind fun _ => Erases.emitIndexed

private theorem erases_declareParams : ∀ {params : List Ident},
    Erases (declareParams params) (declareParams (params.map Ident.unspanned))
  | [] => Erases.pure
  | _ :: _ => Erases.updateScope.bind fun _ => erases_declareParams

private theorem erases_openFunction {name : Ident} {params : List Ident} :
    Erases (openFunction span name params)
      (openFunction .zero name.unspanned (params.map Ident.unspanned)) := by
  rw [openFunction, openFunction, List.length_map]
  refine Erases.ite Erases.fail (Erases.emitJump.bind fun _ => Erases.here.bind fun _ => ?_)
  exact Erases.emit.bind fun _ => Erases.updateScope.bind fun _ =>
    Erases.bind (Erases.modify fun _ => rfl) fun _ => erases_declareParams.bind fun _ => Erases.pure

private theorem endsInReturn_unspanned (body : List Stmt) :
    endsInReturn (Stmt.unspannedAll body) = endsInReturn body := by
  have hlast : (Stmt.unspannedAll body).getLast? = body.getLast?.map Stmt.unspanned := by
    induction body with
    | nil => rfl
    | cons s ss ih => cases ss with
      | nil => rfl
      | cons s' ss => exact ih
  rw [endsInReturn, endsInReturn, hlast]
  cases body.getLast? with
  | none => rfl
  | some s =>
    cases s with
    | define _ _ _ b | loop _ _ _ _ b =>
      cases b
      rfl
    | _ => rfl

private theorem erases_closeFunction {body : List Stmt} {skip : Nat} {f : KnownFunction} :
    Erases (closeFunction span body skip f)
      (closeFunction .zero (Stmt.unspannedAll body) skip f) := by
  rw [closeFunction, closeFunction, endsInReturn_unspanned]
  refine Erases.ite (Erases.emit.bind fun _ => Erases.emit.bind fun _ => ?_) ?_
  all_goals
    refine (Erases.modify fun a => ?_).bind fun _ => Erases.patch.bind fun _ => Erases.emitConstant
    obtain ⟨c, s, outer⟩ := a
    cases outer <;> rfl

private theorem erases_openLoop {update : Option LoopUpdate} :
    Erases (openLoop update) (openLoop (update.map LoopUpdate.unspanned)) := by
  refine Erases.updateScope.bind fun _ => Erases.scope.bind fun _ => ?_
  cases update with
  | none => exact Erases.updateScope.bind fun _ => Erases.pure
  | some u =>
    exact Erases.emitConstant.bind fun _ => Erases.updateScope.bind fun _ =>
      Erases.updateScope.bind fun _ => Erases.pure

end

mutual

/-- The code of a statement. -/
theorem Stmt.erases : ∀ {s : Stmt}, Erases s.assemble s.unspanned.assemble
  | .assign _ _ x => x.erases.bind fun _ => Erases.writeName
  | .declare _ _ _ => Initial.erases.bind fun _ => Erases.updateScope
  | .load _ _ => Erases.pure
  | .define _ _ _ (.mk _ _) =>
    erases_openFunction.bind fun _ => Stmt.erasesAll.bind fun _ => erases_closeFunction
  | .expr _ x | .ret _ x => x.erases.bind fun _ => Erases.emit
  | .switch _ _ _ =>
    Erases.updateScope.bind fun _ => Arm.erasesSwitch.bind fun _ =>
      Erases.patchOption.bind fun _ => Block.erasesOption.bind fun _ => Erases.closeBreakable
  | .branch _ _ _ _ =>
    Erases.emit.bind fun _ => Erases.emitJump.bind fun _ => Block.erasesOption.bind fun _ =>
      Erases.emitJump.bind fun _ => Arm.erasesBranch.bind fun _ => Erases.patch.bind fun _ =>
        Block.erasesOption.bind fun _ => Erases.patchAll
  | .cast _ _ _ => Erases.readName.bind fun _ => Erases.emit.bind fun _ => Erases.writeName
  | .leave _ => Erases.leave
  | .loop _ _ _ none (.mk _ _) =>
    erases_openLoop.bind fun _ => Erases.here.bind fun _ => Erases.pure.bind fun _ =>
      Erases.updateScope.bind fun _ => Stmt.erasesAll.bind fun _ => Erases.closeScope.bind fun _ =>
        Erases.emitLoop.bind fun _ => Erases.patchOption.bind fun _ =>
          Erases.closeBreakable.bind fun _ => Erases.closeScope
  | .loop _ _ _ (some _) (.mk _ _) =>
    erases_openLoop.bind fun _ => Erases.here.bind fun _ => LoopTest.erases.bind fun _ =>
      Erases.updateScope.bind fun _ => Stmt.erasesAll.bind fun _ => Erases.closeScope.bind fun _ =>
        LoopUpdate.erases.bind fun _ => Erases.emitLoop.bind fun _ =>
          Erases.patchOption.bind fun _ => Erases.closeBreakable.bind fun _ => Erases.closeScope
  | .print _ _ _ => erases_assemblePrinted.bind fun _ => Erases.emit
  | .read _ _ => Erases.emit.bind fun _ => Erases.writeName
  | .append _ _ x => Erases.readName.bind fun _ => x.erases.bind fun _ => Erases.emit
  | .store _ _ i x =>
    Erases.readName.bind fun _ => i.erases.bind fun _ => x.erases.bind fun _ => Erases.emit

theorem Stmt.erasesAll : ∀ {ss : List Stmt},
    Erases (Stmt.assembleAll ss) (Stmt.assembleAll (Stmt.unspannedAll ss))
  | [] => Erases.pure
  | _ :: _ => Stmt.erases.bind fun _ => Stmt.erasesAll

theorem Block.erasesOption {span : Span} : ∀ {block : Option Block},
    Erases (Block.assembleOption span block)
      (Block.assembleOption .zero (Block.unspannedOption block))
  | none => Erases.pure
  | some (.mk _ _) =>
    Erases.updateScope.bind fun _ => Stmt.erasesAll.bind fun _ => Erases.closeScope

theorem Arm.erasesSwitch {span : Span} : ∀ {arms : List Arm} {fall : Option Nat},
    Erases (Arm.assembleSwitch span fall arms)
      (Arm.assembleSwitch .zero fall (Arm.unspannedAll arms))
  | [], _ => Erases.pure
  | .mk test (.mk _ _) :: _, _ => by
    rw [Arm.unspannedAll, Arm.assembleSwitch, Arm.assembleSwitch, test.span_unspanned]
    exact Erases.emit.bind fun _ => test.erases.bind fun _ => Erases.emit.bind fun _ =>
      Erases.emitJump.bind fun _ => Erases.patchOption.bind fun _ => Erases.updateScope.bind
        fun _ => Stmt.erasesAll.bind fun _ => Erases.closeScope.bind fun _ =>
          Erases.emitJump.bind fun _ => Erases.patch.bind fun _ => Arm.erasesSwitch

theorem Arm.erasesBranch {span : Span} : ∀ {arms : List Arm} {next : Nat},
    Erases (Arm.assembleBranch span next arms)
      (Arm.assembleBranch .zero next (Arm.unspannedAll arms))
  | [], _ => Erases.pure
  | .mk test (.mk _ _) :: _, _ => by
    rw [Arm.unspannedAll, Arm.assembleBranch, Arm.assembleBranch, test.span_unspanned]
    exact Erases.patch.bind fun _ => test.erases.bind fun _ => Erases.emitJump.bind fun _ =>
      Erases.updateScope.bind fun _ => Stmt.erasesAll.bind fun _ => Erases.closeScope.bind fun _ =>
        Erases.emitJump.bind fun _ => Arm.erasesBranch.bind fun _ => Erases.pure

end

/-- A program has the same code, or the same fault, without its spans. -/
theorem Program.compile_unspanned (p : Program) (names : NameTable) :
    p.unspanned.compile names = erased Chunk.unspanned (p.compile names) := by
  have hassemble : Erases p.assemble p.unspanned.assemble :=
    Stmt.erasesAll.bind fun _ => Erases.emit
  have hstart : Assembly.unspanned ⟨.empty, .empty, []⟩ = ⟨.empty, .empty, []⟩ := by
    simp [Assembly.unspanned, Chunk.unspanned, Chunk.empty]
  have hrun := hassemble ⟨.empty, .empty, []⟩
  rw [hstart] at hrun
  change (p.unspanned.assemble ⟨.empty, .empty, []⟩ >>= _) =
    erased _ (p.assemble ⟨.empty, .empty, []⟩ >>= _)
  rw [hrun]
  cases p.assemble ⟨.empty, .empty, []⟩ <;> rfl

/-- The lexeme of a class with a text and with variables at places. -/
def TokenKind.lexeme (k : TokenKind) (text : Text) (places : List (Nat × Text)) : Lexeme :=
  match k with
  | .endOfInput => .endOfInput
  | .lineBreak => .lineBreak
  | .number => .number text
  | .string | .interpolated => .string text (places.map fun p => ⟨p.1, p.2, .zero⟩)
  | .identifier => .identifier text
  | .question => .question
  | .bang => .bang
  | .dot => .dot
  | .keyword k => .keyword k text

namespace Token

/-- The variables of a string with their places. -/
def places (t : Token) : List (Nat × Text) :=
  t.insertions.map fun i => (i.offset, i.name)

/-- Tokens that say the same, wherever they stand: they agree in class and text, and in the places
and names of the variables in a string. -/
structure Alike (t u : Token) : Prop where
  kind : t.kind = u.kind
  text : t.lexeme.text = u.lexeme.text
  places : t.places = u.places

instance (t u : Token) : Decidable (t.Alike u) :=
  decidable_of_iff (t.kind = u.kind ∧ t.lexeme.text = u.lexeme.text ∧ t.places = u.places)
    ⟨fun h => ⟨h.1, h.2.1, h.2.2⟩, fun h => ⟨h.1, h.2, h.3⟩⟩

/-- Class, text and places are all there is to a token without spans. -/
private theorem unspanned_eq (t : Token) :
    t.unspanned = ⟨t.kind.lexeme t.lexeme.text t.places, .zero⟩ := by
  obtain ⟨lexeme, span⟩ := t
  cases lexeme with
  | string text insertions =>
    have hplaces : (Token.places ⟨.string text insertions, span⟩).map
        (fun p => (⟨p.1, p.2, .zero⟩ : Insertion)) = insertions.map Insertion.unspanned := by
      rw [places, List.map_map]
      rfl
    cases insertions <;> exact congrArg (fun is => Token.mk (.string text is) .zero) hplaces.symm
  | _ => rfl

private theorem Alike.unspanned {t u : Token} (h : t.Alike u) : t.unspanned = u.unspanned := by
  rw [unspanned_eq, unspanned_eq, h.kind, h.text, h.places]

theorem unspanned_of_alike {ts us : List Token} (h : List.Forall₂ Alike ts us) :
    ts.map unspanned = us.map unspanned := by
  induction h with
  | nil => rfl
  | cons ht _ ih => exact congrArg₂ List.cons ht.unspanned ih

theorem name?_unspanned (t : Token) : t.unspanned.name? = t.name? := by
  obtain ⟨lexeme, span⟩ := t
  cases lexeme <;> rfl

private theorem insertions_unspanned (t : Token) :
    t.unspanned.insertions.map Insertion.name = t.insertions.map Insertion.name := by
  obtain ⟨lexeme, span⟩ := t
  cases lexeme with
  | string text insertions =>
    change (insertions.map Insertion.unspanned).map Insertion.name = insertions.map Insertion.name
    rw [List.map_map]
    rfl
  | _ => rfl

private theorem introduced_go_unspanned (ts later : List Token) :
    introduced.go (ts.map unspanned) (later.map unspanned) = introduced.go ts later := by
  induction ts generalizing later with
  | nil => rfl
  | cons t ts ih =>
    cases later with
    | nil => exact congrArg₂ (· ++ ·) t.insertions_unspanned (ih [])
    | cons a later =>
      rw [List.map_cons, List.map_cons, introduced.go, introduced.go, name?_unspanned,
        insertions_unspanned, ih]

private theorem introduced_unspanned (ts : List Token) :
    introduced (ts.map unspanned) = introduced ts := by
  have hnames : ∀ us : List Token, (us.map unspanned).filterMap name? = us.filterMap name? := by
    intro us
    rw [List.filterMap_map]
    exact congrArg (List.filterMap · us) (funext name?_unspanned)
  rw [introduced, introduced, ← List.map_take, ← List.map_drop, hnames, introduced_go_unspanned]

private theorem untilFault_map_ok (ts : List Token) : untilFault (ts.map .ok) = (ts, none) := by
  induction ts with
  | nil => rfl
  | cons t ts ih => rw [List.map_cons, untilFault, ih]

/-- What is read without a fault is tokens. -/
private theorem eq_map_ok_of_untilFault {items : List (Except Diagnostic Token)}
    (h : (untilFault items).2 = none) : items = (untilFault items).1.map .ok := by
  induction items with
  | nil => rfl
  | cons item items ih =>
    cases item with
    | error d => cases h
    | ok t => exact congrArg (.ok t :: ·) (ih h)

end Token

section Layout

variable {file file' : Int} {text text' : Text} {ts us : List Token}

/-- Texts with the same tokens lead to the same chunk or fault, up to spans. -/
private theorem compileSource_unspanned [CharNames] (hts : Token.items file text = ts.map .ok)
    (hus : Token.items file' text' = us.map .ok) (h : ts.map Token.unspanned = us.map Token.unspanned)
    (optimize : Bool) : erased Chunk.unspanned (compileSource file text optimize) =
      erased Chunk.unspanned (compileSource file' text' optimize) := by
  have hitems : (Token.items file text).map (erased Token.unspanned) =
      (Token.items file' text').map (erased Token.unspanned) := by
    have hmap : ∀ vs : List Token, (vs.map Except.ok).map (erased Token.unspanned) =
        (vs.map Token.unspanned).map .ok := by
      intro vs
      rw [List.map_map, List.map_map]
      rfl
    rw [hts, hus, hmap, hmap, h]
  have hnames : NameTable.ofSource file text = NameTable.ofSource file' text' := by
    rw [NameTable.ofSource, NameTable.ofSource, hts, hus, Token.untilFault_map_ok,
      Token.untilFault_map_ok, NameTable.ofTokens, NameTable.ofTokens,
      ← Token.introduced_unspanned, h, Token.introduced_unspanned]
  have hpath (p : Except Diagnostic Program) : erased Chunk.unspanned
      (p >>= fun q => (if optimize then q.simplify else q).compile (.ofSource file text)) =
      erased Program.unspanned p >>= fun q =>
        (if optimize then q.simplify else q).compile (.ofSource file text) := by
    cases p with
    | error d => rfl
    | ok q =>
      change _ = (if optimize then q.unspanned.simplify else q.unspanned).compile _
      rw [q.simplify_unspanned]
      cases optimize with
      | false => exact (q.compile_unspanned _).symm
      | true => exact (q.simplify.compile_unspanned _).symm
  rw [compileSource, compileSource, ← hnames, hpath, hpath, Program.parse_unspanned hitems]

/-- Layout does not change the code: texts with the same tokens, however they are laid out and in
whatever file, have the same code, constants and names, or a fault of the same class and with the
same messages. -/
theorem compileSource_of_alike [CharNames] (hts : Token.items file text = ts.map .ok)
    (hus : Token.items file' text' = us.map .ok) (h : List.Forall₂ Token.Alike ts us)
    (optimize : Bool) :
    match compileSource file text optimize, compileSource file' text' optimize with
    | .ok c, .ok c' => c.code = c'.code ∧ c.pool = c'.pool ∧ c.names = c'.names
    | .error d, .error d' => d.kind = d'.kind ∧ d.message = d'.message ∧
        d.notes.map (·.message) = d'.notes.map (·.message)
    | _, _ => False := by
  have herased := compileSource_unspanned hts hus (Token.unspanned_of_alike h) optimize
  cases hc : compileSource file text optimize with
  | ok c =>
    cases hc' : compileSource file' text' optimize with
    | ok c' =>
      rw [hc, hc'] at herased
      have hchunk : c.unspanned = c'.unspanned := Except.ok.inj herased
      have hcode := congrArg Chunk.code hchunk
      have hpool := congrArg Chunk.pool hchunk
      have hnames := congrArg Chunk.names hchunk
      exact ⟨hcode, hpool, hnames⟩
    | error d' =>
      rw [hc, hc'] at herased
      cases herased
  | error d =>
    cases hc' : compileSource file' text' optimize with
    | ok c' =>
      rw [hc, hc'] at herased
      cases herased
    | error d' =>
      rw [hc, hc'] at herased
      have hd : d.unspanned = d'.unspanned := Except.error.inj herased
      have hmessages (d : Diagnostic) :
          d.unspanned.notes.map (·.message) = d.notes.map (·.message) := by
        dsimp only [Diagnostic.unspanned]
        rw [List.map_map]
        rfl
      have hkind := congrArg Diagnostic.kind hd
      have hmessage := congrArg Diagnostic.message hd
      have hnotes := congrArg (fun d => d.notes.map (·.message)) hd
      rw [hmessages, hmessages] at hnotes
      exact ⟨hkind, hmessage, hnotes⟩

end Layout

attribute [local instance] CharNames.common

/-- A comment, a comma for a line end and a blank line change nothing. -/
theorem compileSource_of_alike_comma :
    ∃ ts us, Token.items 0 "HAI 1.2\nVISIBLE 7 BTW lucky\n\nKTHXBYE" = ts.map .ok ∧
      Token.items 1 "HAI 1.2, VISIBLE\t7,KTHXBYE" = us.map .ok ∧ List.Forall₂ Token.Alike ts us ∧
      match compileSource 0 "HAI 1.2\nVISIBLE 7 BTW lucky\n\nKTHXBYE" true,
        compileSource 1 "HAI 1.2, VISIBLE\t7,KTHXBYE" true with
      | .ok c, .ok c' => c.code = c'.code ∧ c.pool = c'.pool ∧ c.names = c'.names
      | .error d, .error d' => d.kind = d'.kind ∧ d.message = d'.message ∧
          d.notes.map (·.message) = d'.notes.map (·.message)
      | _, _ => False := by
  have hts := (Token.items_eq 0 "HAI 1.2\nVISIBLE 7 BTW lucky\n\nKTHXBYE").trans
    (Token.eq_map_ok_of_untilFault (by decide +kernel))
  have hus := (Token.items_eq 1 "HAI 1.2, VISIBLE\t7,KTHXBYE").trans
    (Token.eq_map_ok_of_untilFault (by decide +kernel))
  refine ⟨_, _, hts, hus, ?alike, compileSource_of_alike hts hus ?alike true⟩
  decide +kernel

end LolToolchain
