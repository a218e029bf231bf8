import LolToolchain.Proofs.Evaluation.Renaming
import LolToolchain.Proofs.Program.Simplification

/-!
Comparisons with an extreme, as orderings. Where the compared operand is a `NUMBR` and the other one
comes down to a `NUMBR` or to a fault, a comparison and the ordering it is folded to calculate the
same.
-/
namespace LolToolchain

open Calc

open Heap (Adds)

variable {read : Text → Value} {heap : Heap} {p q : Int64}

namespace Calc

variable {β γ : Type} {r : Except Fault β} {Q : β → Value → Prop}

/-- Whatever lists are added, a calculation has the same fault, or a value of the same kind. -/
def Always (heap : Heap) (r : Except Fault β) (Q : β → Value → Prop) (k : Calc Value) : Prop :=
  ∀ heap', Adds heap heap' → match r with
    | .ok b => ∃ v after, k heap' = .ok (v, after) ∧ Adds heap after ∧ Q b v
    | .error f => k heap' = .error f

theorem Always.bind {k : Calc Value} {f : Value → Calc Value} {t : β → Except Fault γ}
    {P : γ → Value → Prop} (hk : Always heap r Q k)
    (hf : ∀ b v, Q b v → Always heap (t b) P (f v)) : Always heap (r >>= t) P (k >>= f) := by
  intro heap' hadds
  have hk := hk heap' hadds
  rw [run_bind]
  cases r with
  | error fault =>
    rw [show k heap' = .error fault from hk]
    rfl
  | ok b =>
    obtain ⟨v, after, hrun, hafter, hv⟩ := hk
    rw [hrun]
    exact hf b v hv after hafter

theorem always_operate {f : Heap → Except Fault Value} {F : β → Value}
    (hf : ∀ heap, f heap = r.map F) : Always heap r (fun b v => v = F b) (operate f) := by
  intro heap' hadds
  simp only [operate, perform, hf]
  cases r with
  | error fault => rfl
  | ok b => exact ⟨F b, heap', rfl, hadds, rfl⟩

theorem Always.result {k : Calc Value} {F : β → Value}
    (h : Always heap r (fun b v => v = F b) k) : (k heap).map Prod.fst = r.map F := by
  have h := h heap List.prefix_rfl
  cases r with
  | error f => rw [show k heap = .error f from h]; rfl
  | ok b =>
    obtain ⟨v, after, hrun, -, rfl⟩ := h
    rw [hrun]
    rfl

end Calc

namespace Expr

variable {x : Expr}

/-- Where nothing else is known, added lists do not change the result of an expression but for
references. -/
theorem always (hheap : Heap.Whole heap) (hread : ∀ name, (read name).Whole heap.size) (x : Expr) :
    Always heap ((x.value read heap).map Prod.fst) (fun v w => ∃ ρ, w = v.rename ρ)
      (x.value read) := by
  intro heap' hadds
  obtain ⟨ρ, hρ⟩ := value_of_adds hheap hread hadds x
  cases hx : x.value read heap with
  | error f =>
    rw [hx] at hρ
    exact hρ
  | ok r =>
    rw [hx] at hρ
    obtain ⟨-, after, hrun, -⟩ := hρ
    exact ⟨_, after, hrun, hadds.trans (adds_of_value hrun), ρ, rfl⟩

/-- An expression that gives a number gives it whatever lists are added. -/
theorem always_numbr (hheap : Heap.Whole heap) (hread : ∀ name, (read name).Whole heap.size)
    {after : Heap} (hx : x.value read heap = .ok (.numbr p, after)) :
    Always heap (.ok ()) (fun _ v => v = .numbr p) (x.value read) := by
  have h := always hheap hread x
  rw [hx] at h
  intro heap' hadds
  obtain ⟨v, after, hrun, hafter, ρ, hv⟩ := h heap' hadds
  exact ⟨v, after, hrun, hafter, hv⟩

/-- An expression that does not come down to a `NUMBAR` has a fault, or its value counts as a number
or has a fault when it is taken for one. -/
theorem always_counts (hheap : Heap.Whole heap) (hread : ∀ name, (read name).Whole heap.size)
    (hx : ∀ v after y, x.value read heap = .ok (v, after) → Number.ofValue v ≠ .ok (.float y)) :
    ∃ r : Except Fault (Except Fault Int64),
      Always heap r (fun c v => Number.ofValue v = c.map .int) (x.value read) := by
  have h := always hheap hread x
  cases hrun : x.value read heap with
  | error f =>
    rw [hrun] at h
    exact ⟨.error f, h⟩
  | ok s =>
    obtain ⟨v, after⟩ := s
    obtain ⟨c, hc⟩ : ∃ c : Except Fault Int64, Number.ofValue v = c.map .int := by
      cases hv : Number.ofValue v with
      | error f => exact ⟨.error f, rfl⟩
      | ok y =>
        cases y with
        | int q => exact ⟨.ok q, rfl⟩
        | float y => exact absurd hv (hx v after y hrun)
    rw [hrun] at h
    refine ⟨.ok c, fun heap' hadds => ?_⟩
    obtain ⟨w, after', hrun', hafter, ρ, rfl⟩ := h heap' hadds
    exact ⟨_, after', hrun', hafter, (Value.ofValue_rename v).trans hc⟩

variable {op : BinaryOp} {m : Extreme} {c : Except Fault Int64} {w : Value}

/-- The greater or the lesser of two numbers. -/
def Extreme.choose (m : Extreme) (p q : Int64) : Int64 :=
  if m.isGreater then (if p < q then q else p) else (if q < p then q else p)

/-- Whether a comparison of a number with the extreme of itself and another one holds. -/
def Extreme.holds (m : Extreme) (op : BinaryOp) (p q : Int64) : Bool :=
  (m.choose p q == p) == (op == .equal)

private theorem Extreme.choose_comm (m : Extreme) (p q : Int64) : m.choose p q = m.choose q p := by
  unfold choose
  split <;> grind

theorem Extreme.op_apply_left (m : Extreme) (heap : Heap) (p : Int64)
    (hw : Number.ofValue w = c.map .int) :
    m.op.apply heap (.numbr p) w = c.map fun q => .numbr (m.choose p q) := by
  unfold op choose
  split <;> simp only [BinaryOp.apply, Arithmetic.eval, hw] <;> cases c <;> rfl

theorem Extreme.op_apply_right (m : Extreme) (heap : Heap) (p : Int64)
    (hw : Number.ofValue w = c.map .int) :
    m.op.apply heap w (.numbr p) = c.map fun q => .numbr (m.choose p q) := by
  have hcomm : (fun q => Value.numbr (m.choose p q)) = fun q => .numbr (m.choose q p) :=
    funext fun q => congrArg Value.numbr (m.choose_comm p q)
  rw [hcomm]
  unfold op choose
  split <;> simp only [BinaryOp.apply, Arithmetic.eval, hw] <;> cases c <;> rfl

/-- A comparison of the extreme with the number that it was taken of, on either side. -/
theorem Extreme.comparison_apply (m : Extreme) (hop : op = .equal ∨ op = .notEqual) (heap : Heap)
    (p q : Int64) :
    op.apply heap (.numbr (m.choose p q)) (.numbr p) = .ok (.troof (m.holds op p q)) ∧
      op.apply heap (.numbr p) (.numbr (m.choose p q)) = .ok (.troof (m.holds op p q)) := by
  have hcomm : (p == m.choose p q) = (m.choose p q == p) := Bool.beq_comm
  simp only [holds]
  rcases hop with rfl | rfl <;> simp only [BinaryOp.apply, Value.equal, hcomm] <;>
    cases m.choose p q == p <;> exact ⟨rfl, rfl⟩

/-- The ordering in place of an equation. -/
theorem Extreme.equation_apply (m : Extreme) (heap : Heap) (p : Int64)
    (hw : Number.ofValue w = c.map .int) :
    (if m.isGreater then BinaryOp.ge else .le).apply heap (.numbr p) w =
      (c.map (m.holds .equal p)).map .troof := by
  have hholds (q : Int64) : m.holds .equal p q =
      (Comparison.order? (.int p) (.int q)).any
        (if m.isGreater then Comparison.ge else .le).accepts := by
    unfold holds choose Comparison.order?
    split <;> grind [Comparison.accepts]
  rw [funext hholds]
  split <;> simp only [BinaryOp.apply, Comparison.eval, hw] <;> cases c <;> rfl

/-- The ordering in place of a negated equation. -/
theorem Extreme.inequation_apply (m : Extreme) (heap : Heap) (p : Int64)
    (hw : Number.ofValue w = c.map .int) :
    (if m.isGreater then BinaryOp.gt else .lt).apply heap w (.numbr p) =
      (c.map (m.holds .notEqual p)).map .troof := by
  have hholds (q : Int64) : m.holds .notEqual p q =
      (Comparison.order? (.int q) (.int p)).any
        (if m.isGreater then Comparison.gt else .lt).accepts := by
    unfold holds choose Comparison.order?
    split <;> grind [Comparison.accepts]
  rw [funext hholds]
  split <;> simp only [BinaryOp.apply, Comparison.eval, hw] <;> cases c <;> rfl

variable {left right other matched rest : Expr} {r : Except Fault (Except Fault Int64)}

/-- The value of an extreme whose operands are found again and counted, in either order. -/
private theorem Folds.always_extreme (h : Folds op left right m other matched rest) (s : Span)
    (hmatched : Always heap (.ok ()) (fun _ v => v = .numbr p) (matched.value read))
    (hrest : Always heap r (fun c v => Number.ofValue v = c.map .int) (rest.value read)) :
    Always heap (r >>= id) (fun q v => v = .numbr (m.choose p q))
      ((binary s m.op m.left m.right).value read) := by
  obtain ⟨-, ⟨hleft, hright⟩ | ⟨hleft, hright⟩⟩ := h.operands_eq
  · rw [hleft, hright, value]
    exact hmatched.bind (t := fun _ => r >>= id) fun _ v hv => hrest.bind fun c w hw =>
      always_operate fun heap => by rw [hv]; exact m.op_apply_left heap p hw
  · rw [hleft, hright, value]
    exact hrest.bind (t := id) fun c w hw => hmatched.bind (t := fun _ => c) fun _ v hv =>
      always_operate fun heap => by rw [hv]; exact m.op_apply_right heap p hw

/-- A comparison that can be folded, as it is written. -/
private theorem Folds.always_comparison (h : Folds op left right m other matched rest) (span : Span)
    (hmatched : Always heap (.ok ()) (fun _ v => v = .numbr p) (matched.value read))
    (hother : Always heap (.ok ()) (fun _ v => v = .numbr p) (other.value read))
    (hrest : Always heap r (fun c v => Number.ofValue v = c.map .int) (rest.value read)) :
    Always heap (r >>= fun c => c.map (m.holds op p)) (fun b v => v = .troof b)
      ((binary span op left right).value read) := by
  have hresult : (r >>= fun c => c.map (m.holds op p)) =
      (r >>= id) >>= fun q => .ok (m.holds op p q) := by
    cases r with
    | error f => rfl
    | ok c => cases c <;> rfl
  obtain ⟨s, ⟨rfl, rfl⟩ | ⟨rfl, rfl⟩⟩ := h.sides_eq
  · rw [hresult, value]
    exact (h.always_extreme s hmatched hrest).bind fun q v hv =>
      hother.bind (t := fun _ => .ok (m.holds op p q)) fun _ w hw => always_operate fun heap => by
        rw [hv, hw]
        exact (m.comparison_apply h.operator heap p q).1
  · rw [hresult, value]
    exact hother.bind (t := fun _ => (r >>= id) >>= fun q => .ok (m.holds op p q)) fun _ v hv =>
      (h.always_extreme s hmatched hrest).bind fun q w hw => always_operate fun heap => by
        rw [hv, hw]
        exact (m.comparison_apply h.operator heap p q).2

/-- The ordering that takes its place. -/
private theorem Folds.always_ordering (h : Folds op left right m other matched rest) (span : Span)
    (hmatched : Always heap (.ok ()) (fun _ v => v = .numbr p) (matched.value read))
    (hrest : Always heap r (fun c v => Number.ofValue v = c.map .int) (rest.value read)) :
    Always heap (r >>= fun c => c.map (m.holds op p)) (fun b v => v = .troof b)
      ((foldComparison span op left right).value read) := by
  rw [h.fold_eq]
  rcases h.operator with rfl | rfl
  · exact hmatched.bind (t := fun _ => r >>= fun c => c.map (m.holds .equal p)) fun _ v hv =>
      hrest.bind fun c w hw => always_operate fun heap => by
        rw [hv]
        exact m.equation_apply heap p hw
  · exact hrest.bind fun c w hw => hmatched.bind (t := fun _ => c.map (m.holds .notEqual p))
      fun _ v hv => always_operate fun heap => by
        rw [hv]
        exact m.inequation_apply heap p hw

/-- Where the compared operand gives a `NUMBR` and the other one does not come down to a `NUMBAR`, a
comparison and the ordering it is folded to have the same fault or the same truth value. -/
theorem Folds.value_eq (h : Folds op left right m other matched rest) (span : Span)
    (halike : matched.unspanned = other.unspanned) (hheap : Heap.Whole heap)
    (hread : ∀ name, (read name).Whole heap.size) {after : Heap}
    (hmatched : matched.value read heap = .ok (.numbr p, after))
    (hrest : ∀ v after y, rest.value read heap = .ok (v, after) →
      Number.ofValue v ≠ .ok (.float y)) :
    ∃ r : Except Fault Bool,
      ((binary span op left right).value read heap).map Prod.fst = r.map .troof ∧
      ((foldComparison span op left right).value read heap).map Prod.fst = r.map .troof := by
  have hm := always_numbr hheap hread hmatched
  obtain ⟨r, hr⟩ := always_counts hheap hread hrest
  have ho : Always heap (.ok ()) (fun _ v => v = .numbr p) (other.value read) := by
    rwa [← value_unspanned other, ← halike, value_unspanned]
  exact ⟨_, (h.always_comparison span hm ho hr).result, (h.always_ordering span hm hr).result⟩

end Expr
end LolToolchain
