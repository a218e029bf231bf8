import LolToolchain.Proofs.Effect
import LolToolchain.Proofs.Evaluation.Basic

/-!
Evaluations with no step left. Nothing more can be seen of them: they print nothing, read nothing and do
not fail. Most take a step first, and so their steps are used up at once. Passes of loops and calls are of
this kind, which is why a bound on loops and calls makes no difference as long as there are steps.
-/
namespace LolToolchain

/-- What can be seen of a run that has come to a state. -/
def EvalState.seen (st : EvalState) : Observation :=
  ⟨none, st.output, st.input⟩

/-- A way to leave a statement other than with a value to return. -/
def Flow.Passed (flow : Flow) : Prop :=
  ∀ v span, flow ≠ .found v span

namespace Eval

variable {α β : Type} {x : Eval α} {f : α → Eval β} {Q : α → Prop} {R : β → Prop}

/-- With no step left, nothing more is seen of an evaluation. It gives something of which `Q` holds, or its
steps are used up. -/
def Idles (x : Eval α) (Q : α → Prop) : Prop :=
  ∀ st : EvalState, st.steps = 0 →
    match x st with
    | (.ok a, st') => (st'.steps = 0 ∧ st'.seen = st.seen) ∧ Q a
    | (.error e, st') => e = none ∧ st'.seen = st.seen

/-- An evaluation that takes a step before anything of it is seen. -/
abbrev Spends (x : Eval α) : Prop :=
  Idles x fun _ => False

namespace Idles

theorem pure {a : α} (h : Q a) : Idles (pure a) Q :=
  fun _ hst => ⟨⟨hst, rfl⟩, h⟩

theorem bind (hx : Idles x Q) (hf : ∀ a, Q a → Idles (f a) R) : Idles (x >>= f) R := by
  intro st hst
  have hrun := hx st hst
  rw [Effect.run_bind]
  obtain ⟨r, st', hr⟩ : ∃ r st', x st = (r, st') := ⟨_, _, rfl⟩
  rw [hr] at hrun ⊢
  cases r with
  | error e => exact hrun
  | ok a =>
    obtain ⟨⟨hst', hseen⟩, ha⟩ := hrun
    have hrest := hf a ha st' hst'
    rwa [hseen] at hrest

/-- What comes behind a statement that is not left with a value. -/
theorem bindFlow {x : Eval Flow} {f : Flow → Eval β} (hx : Idles x Flow.Passed)
    (hnext : Idles (f .next) R) (hleft : Idles (f .left) R) : Idles (x >>= f) R :=
  hx.bind fun flow hflow => by
    cases flow with
    | next => exact hnext
    | left => exact hleft
    | found v span => exact absurd rfl (hflow v span)

theorem height : Idles height fun _ => True :=
  fun _ hst => ⟨⟨hst, rfl⟩, trivial⟩

end Idles

namespace Spends

theorem bind (hx : Spends x) : Idles (x >>= f) R :=
  Idles.bind hx nofun

theorem spent : Spends (throw none : Eval α) :=
  fun _ _ => ⟨rfl, rfl⟩

theorem tick : Spends tick := by
  rintro ⟨vars, implicit, heap, input, output, steps⟩ rfl
  exact ⟨rfl, rfl⟩

theorem give {v : Value} : Spends (give v) := tick.bind

theorem perform {span : Span} {f : Heap → Except Fault (α × Heap)} : Spends (perform span f) :=
  tick.bind

theorem readImplicit : Spends readImplicit := tick.bind

theorem readName {c : EvalContext} {id : Ident} : Spends (readName c id) := tick.bind

theorem newest : Spends newest := tick.bind

theorem readLine {s : Settings} {span : Span} : Spends (readLine s span) := tick.bind

/-- What takes a step in each pass takes one, however often it may be passed. -/
theorem iterate {x : Eval (Option Flow)} (hx : Spends x) : ∀ n : Nat, Spends (iterate x n)
  | 0 => spent
  | _ + 1 => hx.bind

end Spends

theorem Idles.unwind {h : Nat} : Idles (unwind h) fun _ => True := by
  intro st hst
  rw [Eval.unwind, Effect.run_bind, Effect.run_get, Effect.andThen_ok]
  by_cases hlength : st.vars.length = h
  · rw [if_pos hlength]
    exact ⟨⟨hst, rfl⟩, trivial⟩
  · rw [if_neg hlength]
    exact Spends.tick.bind (R := fun _ => True) st hst

/-- A block is left like its body. -/
theorem Idles.inBlock {body : Eval Flow} (hbody : Idles body Flow.Passed) :
    Idles (inBlock body) Flow.Passed :=
  Idles.height.bind fun _ _ => hbody.bindFlow (Idles.unwind.bind fun _ _ => .pure nofun) (.pure nofun)

end Eval

open Eval

variable {c : EvalContext}

private theorem Splice.idlesAll : ∀ ss : List Splice, Idles (evalAll c ss) fun _ => True
  | [] => .pure trivial
  | _ :: _ => Spends.readName.bind

/-- Expressions take a step first. -/
theorem Expr.spends : ∀ x : Expr, Spends (x.eval c)
  | .int _ _ | .float _ _ | .string _ _ | .bool _ _ | .null _ => .give
  | .it _ => .readImplicit
  | .var _ _ => .readName
  | .interp _ _ splices => (Splice.idlesAll splices).bind fun _ _ => Spends.perform
  | .list _ [] => Idles.bind (.pure (Q := fun _ => True) trivial) fun _ _ => Spends.perform
  | .list _ (x :: _) => Spends.bind x.spends.bind
  | .call _ _ _ => Spends.readName.bind
  | .concat _ [] => .give
  | .concat _ [_] => Spends.give.bind
  | .concat _ (x :: _ :: _) => x.spends.bind
  | .nary _ _ [] => .give
  | .nary _ _ [x] => x.spends.bind
  | .nary _ _ (x :: _ :: _) => x.spends.bind
  | .binary _ _ x _ | .cast _ x _ | .unary _ _ x | .pickAt _ _ x | .pickFront _ x
  | .pickBack _ x => x.spends.bind

theorem Initial.spends {span : Span} : ∀ i : Initial, Spends (i.eval c span)
  | .absent => .give
  | .value e => e.spends
  | .typed _ => Spends.tick.bind

private theorem evalPrinted_spends (xs : List Expr) : Spends (evalPrinted c xs) := by
  cases xs with
  | nil => exact .give
  | cons x xs => exact x.spends.bind

namespace LoopUpdate

private theorem idles_start : ∀ update : Option LoopUpdate, Idles (start update) fun _ => True
  | none => .pure trivial
  | some _ => Spends.give.bind

/-- A loop that takes no step to test whether it goes on goes on. -/
private theorem idles_evalTest : ∀ update : Option LoopUpdate, Idles (evalTest c update) (· = true)
  | none => .pure rfl
  | some ⟨_, _, .forever⟩ => .pure rfl
  | some ⟨_, _, .untilTrue e⟩ => e.spends.bind
  | some ⟨_, _, .whileTrue e⟩ => e.spends.bind

private theorem idles_evalChange : ∀ update : Option LoopUpdate, Idles (evalChange c update) fun _ => True
  | none => .pure trivial
  | some ⟨.up, _, _⟩ | some ⟨.down, _, _⟩ => Spends.newest.bind
  | some ⟨.apply _, _, _⟩ => Spends.readName.bind

end LoopUpdate

/-- A pass of a loop takes a step. -/
theorem Eval.Spends.pass {update : Option LoopUpdate} {h : Nat} {body : Eval Flow}
    (hbody : Idles body Flow.Passed) : Spends (Eval.pass c update h body) := by
  refine (LoopUpdate.idles_evalTest update).bind fun _ ht => ?_
  subst ht
  refine hbody.inBlock.bindFlow ?_ (Idles.unwind.bind fun _ _ => Spends.tick.bind)
  exact (LoopUpdate.idles_evalChange update).bind fun _ _ => Spends.tick.bind

mutual

/-- Without a step a statement does nothing, or it is left by `GTFO`. -/
theorem Stmt.idles : ∀ (s : Stmt) (k : Nat), Idles (s.eval c k) Flow.Passed
  | .assign _ _ value, _ | .expr _ value, _ | .ret _ value, _ => value.spends.bind
  | .declare _ _ initial, _ => initial.spends.bind
  | .load _ _, _ | .leave _, _ => .pure nofun
  | .define _ _ _ _, _ => Spends.tick.bind
  | .switch _ arms otherwise, k => by
    refine Idles.height.bind fun h _ => ?_
    have harms := Arm.idles_switch arms k false (Block.idles otherwise (k + Arm.definitionsAll arms))
    exact harms.bindFlow (.pure nofun) (Idles.unwind.bind fun _ _ => Spends.tick.bind)
  | .branch _ _ _ _, _ => Spends.readImplicit.bind
  | .cast _ _ _, _ | .append _ _ _, _ | .store _ _ _ _, _ => Spends.readName.bind
  | .loop _ _ _ update (.mk _ body), k =>
    Idles.height.bind fun _ _ => (LoopUpdate.idles_start update).bind fun _ _ =>
      Idles.height.bind fun _ _ => ((Spends.pass (Stmt.idlesAll body k)).iterate _).bind
  | .print _ args _, _ => (evalPrinted_spends args).bind
  | .read _ _, _ => Spends.readLine.bind

theorem Stmt.idlesAll : ∀ (ss : List Stmt) (k : Nat), Idles (Stmt.evalAll c k ss) Flow.Passed
  | [], _ => .pure nofun
  | s :: ss, k => (Stmt.idles s k).bindFlow (Stmt.idlesAll ss _) (.pure nofun)

theorem Block.idles : ∀ (block : Option Block) (k : Nat),
    Idles (Block.evalOption c k block) Flow.Passed
  | none, _ => .pure nofun
  | some (.mk _ body), k => (Stmt.idlesAll body k).inBlock

theorem Arm.idles_switch : ∀ (arms : List Arm) (k : Nat) (entered : Bool) {default : Eval Flow},
    Idles default Flow.Passed → Idles (Arm.evalSwitch c k entered default arms) Flow.Passed
  | [], _, _, _, hdefault => hdefault
  | .mk _ (.mk _ _) :: _, _, false, _, _ => by
    rw [Arm.evalSwitch, if_neg Bool.false_ne_true]
    exact Spends.readImplicit.bind
  | .mk _ (.mk _ body) :: _, k, true, _, _ => by
    rw [Arm.evalSwitch, if_pos rfl, pure_bind]
    exact (Stmt.idlesAll body k).inBlock.bindFlow Spends.tick.bind (.pure nofun)

end

/-- Every way to leave the body of a function takes a step. -/
private theorem Flow.spends_value : ∀ flow : Flow, Spends flow.value
  | .next => Spends.readImplicit.bind
  | .left => Spends.give.bind
  | .found _ _ => Spends.tick.bind

/-- A call takes a step. -/
theorem Function.spends_call {l : Linked} : ∀ (fuel depth : Nat) (f : Function) (args : List Value),
    Spends (Function.call l fuel depth f args)
  | 0, _, _, _ => .spent
  | fuel + 1, depth, f, args => by
    intro st hst
    let callee : EvalContext := ⟨l, depth + 1, f.outer, fuel, Function.call l fuel (depth + 1)⟩
    have hbody : Idles (Stmt.evalAll callee f.first f.body) Flow.Passed := Stmt.idlesAll f.body f.first
    exact hbody.bind (fun flow _ => flow.spends_value.bind) { st with vars := f.bind args, implicit := .noob }
      hst

end LolToolchain
