import LolToolchain.Proofs.Code.Computation

/-! The code of an expression pushes its value: every form of an expression, from its parts. -/
namespace LolToolchain

open Effect Site Eval

variable (e : Site) {ns : Names}

/-- A result of a computation in two parts. -/
theorem Eval.ok_of_bind {α β : Type} {x : Eval α} {f : α → Eval β} {st st' : EvalState} {r : β}
    (h : (x >>= f) st = (.ok r, st')) : ∃ a st'', x st = (.ok a, st'') ∧ f a st'' = (.ok r, st') := by
  rw [run_bind] at h
  obtain ⟨res, st'', hx⟩ : ∃ res st'', x st = (res, st'') := ⟨_, _, rfl⟩
  rw [hx] at h
  cases res with
  | ok a => exact ⟨a, st'', hx, h⟩
  | error err => cases h

theorem Eval.eq_of_pure {α : Type} {a r : α} {st st' : EvalState}
    (h : (pure a : Eval α) st = (.ok r, st')) : r = a ∧ st' = st := by
  cases h
  exact ⟨rfl, rfl⟩

namespace Splice

private theorem length_of_evalAll {c : EvalContext} {ss : List Splice} {st st' : EvalState}
    {vs : List Value} (h : evalAll c ss st = (.ok vs, st')) : vs.length = ss.length := by
  induction ss generalizing st st' vs with
  | nil =>
    obtain ⟨rfl, -⟩ := eq_of_pure h
    rfl
  | cons s ss ih =>
    obtain ⟨v, st₁, -, h₁⟩ := ok_of_bind h
    obtain ⟨ws, st₂, h₂, h₃⟩ := ok_of_bind h₁
    obtain ⟨rfl, -⟩ := eq_of_pure h₃
    rw [List.length_cons, List.length_cons, ih h₂]

private theorem computesAll : ∀ (ss : List Splice) {a b : Nat},
    PlacedAll e.chunk e.context.outer ns ss a b →
      e.Computes ns [] a (evalAll e.context ss) (fun _ => b) List.reverse
  | [], a, b, h => .pure [] h.symm rfl
  | s :: ss, a, b, h => by
    obtain ⟨m, hs, hss⟩ := h
    refine (Computes.readName hs).bind fun v => ?_
    refine ((computesAll ss hss).frame [v]).bind fun vs => ?_
    exact .pure (v :: vs) rfl List.reverse_cons

end Splice

namespace Expr

private theorem length_of_evalAll {c : EvalContext} {xs : List Expr} {st st' : EvalState}
    {vs : List Value} (h : evalAll c xs st = (.ok vs, st')) : vs.length = xs.length := by
  induction xs generalizing st st' vs with
  | nil =>
    obtain ⟨rfl, -⟩ := eq_of_pure h
    rfl
  | cons x xs ih =>
    obtain ⟨v, st₁, -, h₁⟩ := ok_of_bind h
    obtain ⟨ws, st₂, h₂, h₃⟩ := ok_of_bind h₁
    obtain ⟨rfl, -⟩ := eq_of_pure h₃
    rw [List.length_cons, List.length_cons, ih h₂]

mutual

/-- The code of an expression pushes what the expression evaluates to. -/
theorem computes : ∀ (x : Expr) {a b : Nat}, x.Placed e.chunk e.context.outer ns a b →
    e.Computes ns [] a (x.eval e.context) (fun _ => b) fun r => [r]
  | .int _ _, _, _, h | .float _ _, _, _, h | .string _ _, _, _, h | .bool _ _, _, _, h
  | .null _, _, _, h => .give h
  | .it _, _, _, h => .readImplicit h
  | .var _ _, _, _, h => .readName h
  | .interp _ _ splices, _, _, h => by
    obtain ⟨m, i, hs, ht, hi⟩ := h
    refine (Splice.computesAll e splices hs).bind_of (fun _ _ _ => Splice.length_of_evalAll) ?_
    exact fun vs hl => .interpolate hl ht hi
  | .list _ xs, _, _, h => by
    obtain ⟨m, hxs, hi⟩ := h
    refine (computesAll xs hxs).bind_of (fun _ _ _ => length_of_evalAll) ?_
    exact fun vs hl => .list (hl ▸ hi)
  | .call _ _ xs, _, _, h => by
    obtain ⟨m₁, m₂, hid, hxs, hi⟩ := h
    refine (Computes.readName hid).bind fun v => ?_
    refine ((computesAll xs hxs).frame [v]).bind_of (fun _ _ _ => length_of_evalAll) ?_
    exact fun vs hl => .invoke (hl ▸ hi)
  | .concat _ [], _, _, h => .give h
  | .concat _ [x], _, _, h => by
    obtain ⟨m₁, m₂, hc, hx, hi⟩ := h
    refine (Computes.give hc).bind fun v => ((computes x hx).frame [v]).bind fun w => ?_
    exact .binary hi fun _ => Action.execute_concat
  | .concat _ (x :: y :: ys), _, _, h => by
    obtain ⟨m, hx, hxs⟩ := h
    refine (computes x hx).bind fun v => ?_
    exact computesEach (fun _ => Action.execute_concat) v (y :: ys) hxs
  | .cast _ x _, _, _, h => by
    obtain ⟨m, hx, hi⟩ := h
    exact (computes x hx).bind fun v => .cast hi
  | .binary _ op x y, _, _, h => by
    obtain ⟨m₁, m₂, hx, hy, hi⟩ := h
    refine (computes x hx).bind fun v => ((computes y hy).frame [v]).bind fun w => ?_
    exact .binary hi fun _ => Action.execute_binary op
  | .nary _ _ [], _, _, h => .give h
  | .nary _ _ [x], _, _, h => by
    obtain ⟨m, hx, hi⟩ := h
    exact (computes x hx).bind fun v => .cast hi
  | .nary _ op (x :: y :: ys), _, _, h => by
    obtain ⟨m, hx, hxs⟩ := h
    refine (computes x hx).bind fun v => ?_
    exact computesEach (fun _ => Action.execute_listOp op) v (y :: ys) hxs
  | .unary _ op x, _, _, h => by
    obtain ⟨m, hx, hi⟩ := h
    exact (computes x hx).bind fun v => .unary hi fun _ => Action.execute_unary op
  | .pickAt _ i x, _, _, h => by
    obtain ⟨m₁, m₂, hx, hi, hp⟩ := h
    refine (computes x hx).bind fun v => ((computes i hi).frame [v]).bind fun w => ?_
    exact .binary hp fun _ => Action.execute_getIndex
  | .pickFront _ x, _, _, h => by
    obtain ⟨m, hx, hi⟩ := h
    exact (computes x hx).bind fun v => .unary hi fun _ => Action.execute_front
  | .pickBack _ x, _, _, h => by
    obtain ⟨m, hx, hi⟩ := h
    exact (computes x hx).bind fun v => .unary hi fun _ => Action.execute_back

theorem computesAll : ∀ (xs : List Expr) {a b : Nat}, PlacedAll e.chunk e.context.outer ns xs a b →
    e.Computes ns [] a (evalAll e.context xs) (fun _ => b) List.reverse
  | [], _, _, h => .pure [] h.symm rfl
  | x :: xs, _, _, h => by
    obtain ⟨m, hx, hxs⟩ := h
    refine (computes x hx).bind fun v => ((computesAll xs hxs).frame [v]).bind fun vs => ?_
    exact .pure (v :: vs) rfl List.reverse_cons

theorem computesEach {f : Heap → Value → Value → Except Fault Value} {op : Opcode} {s : Span}
    (hop : ∀ o, Action.execute e.chunk e.context.settings o ⟨op, 0⟩ = Action.binary f) (v : Value) :
    ∀ (xs : List Expr) {a b : Nat}, PlacedEach e.chunk e.context.outer ns op s xs a b →
      e.Computes ns [v] a (evalEach e.context f s v xs) (fun _ => b) fun r => [r]
  | [], _, _, h => .pure v h.symm rfl
  | x :: xs, _, _, h => by
    obtain ⟨m₁, m₂, hx, hi, hxs⟩ := h
    refine ((computes x hx).frame [v]).bind fun w => (Computes.binary hi hop).bind fun u => ?_
    exact computesEach hop u xs hxs

end

private theorem computesJoined (v : Value) : ∀ (xs : List Expr) {a b : Nat},
    PlacedJoined e.chunk e.context.outer ns xs a b →
      e.Computes ns [v] a (evalJoined e.context v xs) (fun _ => b) fun r => [r]
  | [], _, _, h => .pure v h.symm rfl
  | x :: xs, _, _, h => by
    obtain ⟨m₁, m₂, hx, hi, hxs⟩ := h
    refine ((computes e x hx).frame [v]).bind fun w => ?_
    refine (Computes.binary hi fun _ => Action.execute_concat).bind fun u => ?_
    exact computesJoined u xs hxs

end Expr

variable {a b : Nat} {s : Span}

private theorem TypeName.computes {t : TypeName} (h : t.DefaultAt e.chunk s a b) :
    e.Computes ns [] a (perform s fun heap => .ok (t.initial heap)) (fun _ => b) fun r => [r] := by
  have hlist : t = .bukkit → e.chunk.HasIndexed .list .listLong 0 s a b := by
    rintro rfl
    exact ⟨.list, .inl rfl, h⟩
  refine Computes.perform fun ts st _ => ?_
  cases t with
  | bukkit =>
    obtain ⟨op, hop, hi⟩ := hlist rfl
    exact Snapshot.Steps.of_has e.quiet hi (Action.Does.list hop rfl (List.nil_append _).symm)
  | _ =>
    obtain ⟨i, ⟨op, hop, hi⟩, hv⟩ := h
    exact Snapshot.Steps.of_has e.quiet hi (Action.Does.constant hop hv)

theorem Initial.computes {i : Initial} (h : i.Placed e.chunk e.context.outer ns s a b) :
    e.Computes ns [] a (i.eval e.context s) (fun _ => b) fun r => [r] := by
  cases i with
  | absent => exact Computes.give h
  | value x => exact x.computes e h
  | typed t => exact TypeName.computes e h

theorem computes_printed {args : List Expr} (h : PrintedAt e.chunk e.context.outer ns s a b args) :
    e.Computes ns [] a (evalPrinted e.context args) (fun _ => b) fun r => [r] := by
  cases args with
  | nil => exact Computes.give h
  | cons x xs =>
    obtain ⟨m, hx, hxs⟩ := h
    exact (x.computes e hx).bind fun v => Expr.computesJoined e v xs hxs

end LolToolchain
