import LolToolchain.Proofs.Evaluation.Ordering
import LolToolchain.Proofs.Machine.Equality

/-!
The comparison of a `NUMBR` with an extreme of itself and any other value, and the ordering of the two:
they have the same fault or the same truth value. In a negated comparison this holds of `NUMBR`s only, as
a NaN differs from every number but is not above it.
-/
namespace LolToolchain

namespace Numbar

variable {x y : Numbar}

theorem order_of_isZero (h : x.isZero = true) : x.order = 0 := by
  rw [isZero, beq_iff_eq] at h
  rw [order, h]
  split <;> rfl

/-- A finite number lies between the infinities. -/
theorem Finite.order_lt (h : x.Finite) :
    negativeInfinity.order < x.order ∧ x.order < infinity.order := by
  have hhigh : infinity.order = infinityBits := rfl
  have hlow : negativeInfinity.order = -infinityBits := rfl
  rw [Finite] at h
  rw [hhigh, hlow, order]
  split <;> omega

private theorem Finite.ne_infinity (h : x.Finite) : x ≠ infinity := by
  rintro rfl
  exact absurd h.order_lt.2 (by decide)

private theorem Finite.ne_negativeInfinity (h : x.Finite) : x ≠ negativeInfinity := by
  rintro rfl
  exact absurd h.order_lt.1 (by decide)

/-- A finite number is the greater of itself and another one where that one is defined and not above
it. -/
theorem equal_greatest (hx : x.Finite) :
    (x.greatest y).equal x = (!y.isNaN && decide (y.order ≤ x.order)) ∧
      (y.greatest x).equal x = (!y.isNaN && decide (y.order ≤ x.order)) := by
  have hnan := hx.isNaN
  have hne := hx.ne_infinity
  have hlt := hx.order_lt
  have hundefined : nan.isNaN = true := rfl
  have hdefined : infinity.isNaN = false := rfl
  have hzero := order_of_isZero (x := x)
  have hzero' := order_of_isZero (x := y)
  unfold greatest equal less
  constructor <;> grind

/-- A finite number is the lesser of itself and another one where that one is defined and not below
it. -/
theorem equal_least (hx : x.Finite) :
    (x.least y).equal x = (!y.isNaN && decide (x.order ≤ y.order)) ∧
      (y.least x).equal x = (!y.isNaN && decide (x.order ≤ y.order)) := by
  have hnan := hx.isNaN
  have hne := hx.ne_negativeInfinity
  have hlt := hx.order_lt
  have hundefined : nan.isNaN = true := rfl
  have hdefined : negativeInfinity.isNaN = false := rfl
  have hzero := order_of_isZero (x := x)
  have hzero' := order_of_isZero (x := y)
  unfold least equal less
  constructor <;> grind

/-- The orderings of a defined number and another one. -/
theorem any_orderNumbar? (hx : x.isNaN = false) :
    (Comparison.orderNumbar? x y).any Comparison.ge.accepts =
        (!y.isNaN && decide (y.order ≤ x.order)) ∧
      (Comparison.orderNumbar? x y).any Comparison.le.accepts =
        (!y.isNaN && decide (x.order ≤ y.order)) := by
  unfold Comparison.orderNumbar? less equal
  constructor <;> grind [Comparison.accepts]

end Numbar

def Value.IsNumbr (v : Value) : Prop :=
  ∃ p, v = .numbr p

namespace Expr

variable {op : BinaryOp} {m : Extreme} {p q : Int64} {w : Value}

/-- The ordering that takes the place of a comparison of `p` with an extreme of `p` and `w`. -/
def Extreme.order (m : Extreme) (op : BinaryOp) (heap : Heap) (p : Int64) (w : Value) :
    Except Fault Value :=
  if op == .equal then (if m.isGreater then BinaryOp.ge else .le).apply heap (.numbr p) w
  else (if m.isGreater then BinaryOp.gt else .lt).apply heap w (.numbr p)

/-- What comes of an extreme that is compared with `p`: it has a fault of its own, or a value that
compares to a truth value, on whichever side `p` stands. -/
def Yields (op : BinaryOp) (p : Int64) (extreme : Heap → Except Fault Value) :
    Except Fault Bool → Prop
  | .error f => ∀ heap, extreme heap = .error f
  | .ok b => ∃ e, (∀ heap, extreme heap = .ok e) ∧ ∀ heap,
      op.apply heap e (.numbr p) = .ok (.troof b) ∧ op.apply heap (.numbr p) e = .ok (.troof b)

/-- What comes of the comparison of `p` with an extreme of `p` and `w`, and of the ordering. -/
structure Extreme.Verdict (m : Extreme) (op : BinaryOp) (p : Int64) (w : Value)
    (r : Except Fault Bool) : Prop where
  order : ∀ heap, m.order op heap p w = r.map .troof
  left : Yields op p (fun heap => m.op.apply heap (.numbr p) w) r
  right : Yields op p (fun heap => m.op.apply heap w (.numbr p)) r

/-- Where the other value counts as a `NUMBR`, or as no number at all. -/
private theorem Extreme.verdict_of_counts (m : Extreme) (hop : op = .equal ∨ op = .notEqual)
    {c : Except Fault Int64} (hw : Number.ofValue w = c.map .int) :
    m.Verdict op p w (c.map (m.holds op p)) := by
  have hleft := fun heap => m.op_apply_left heap p hw
  have hright := fun heap => m.op_apply_right heap p hw
  have horder : ∀ heap, m.order op heap p w = (c.map (m.holds op p)).map .troof := fun heap => by
    rcases hop with rfl | rfl
    · exact m.equation_apply heap p hw
    · exact m.inequation_apply heap p hw
  cases c with
  | error f => exact ⟨horder, hleft, hright⟩
  | ok q =>
    have hcompare := fun heap => m.comparison_apply hop heap p q
    exact ⟨horder, ⟨_, hleft, hcompare⟩, ⟨_, hright, hcompare⟩⟩

/-- A `NUMBAR` that is compared with `p`. -/
private theorem yields_numbar {extreme : Heap → Except Fault Value} {z : Numbar} {b : Bool}
    (hextreme : ∀ heap, extreme heap = .ok (.numbar z))
    (hz : z.equal (.ofInt p.toInt) = b) : Yields .equal p extreme (.ok b) := by
  refine ⟨_, hextreme, fun heap => ⟨?_, ?_⟩⟩
  · rw [← hz]
    rfl
  · rw [← hz, Numbar.equal_comm]
    rfl

/-- Where the other value counts as a `NUMBAR`, in an equation. -/
private theorem Extreme.exists_verdict_of_numbar (m : Extreme) {y : Numbar}
    (hw : Number.ofValue w = .ok (.float y)) : ∃ b, m.Verdict .equal p w (.ok b) := by
  have hfinite := Numbar.finite_ofInt (Value.natAbs_lt p)
  have hleft (f : Arithmetic) :
      f.eval (.numbr p) w = .ok (.numbar (f.onNumbar (.ofInt p.toInt) y)) := by
    rw [Arithmetic.eval, hw]
    rfl
  have hright (f : Arithmetic) :
      f.eval w (.numbr p) = .ok (.numbar (f.onNumbar y (.ofInt p.toInt))) := by
    rw [Arithmetic.eval, hw]
    rfl
  have horder (f : Comparison) : (f.eval (.numbr p) w).map Value.troof =
      .ok (.troof ((Comparison.orderNumbar? (.ofInt p.toInt) y).any f.accepts)) := by
    rw [Comparison.eval, hw]
    rfl
  obtain ⟨hge, hle⟩ := Numbar.any_orderNumbar? (y := y) hfinite.isNaN
  obtain ⟨hgreatest, hgreatest'⟩ := Numbar.equal_greatest (y := y) hfinite
  obtain ⟨hleast, hleast'⟩ := Numbar.equal_least (y := y) hfinite
  obtain ⟨isGreater, _, _⟩ := m
  cases isGreater with
  | true =>
    exact ⟨_, fun _ => hge ▸ horder .ge, yields_numbar (fun _ => hleft .max) hgreatest,
      yields_numbar (fun _ => hright .max) hgreatest'⟩
  | false =>
    exact ⟨_, fun _ => hle ▸ horder .le, yields_numbar (fun _ => hleft .min) hleast,
      yields_numbar (fun _ => hright .min) hleast'⟩

/-- A comparison with an extreme of a `NUMBR` and the ordering in its place come to the same. -/
theorem Extreme.exists_verdict (m : Extreme) (hop : op = .equal ∨ op = .notEqual)
    (hw : op = .notEqual → w.IsNumbr) : ∃ r, m.Verdict op p w r := by
  rcases hop with rfl | rfl
  · cases hnumber : Number.ofValue w with
    | error f => exact ⟨_, m.verdict_of_counts (c := .error f) (.inl rfl) hnumber⟩
    | ok n =>
      cases n with
      | int q => exact ⟨_, m.verdict_of_counts (c := .ok q) (.inl rfl) hnumber⟩
      | float y =>
        obtain ⟨b, hb⟩ := m.exists_verdict_of_numbar (p := p) hnumber
        exact ⟨_, hb⟩
  · obtain ⟨q, rfl⟩ := hw rfl
    exact ⟨_, m.verdict_of_counts (c := .ok q) (.inr rfl) rfl⟩

end Expr
end LolToolchain
