import LolToolchain.Proofs.Evaluation.Basic
import LolToolchain.Proofs.Program.Rendering

/-!
Expressions as calculations. What an expression without calls gives depends on the values of the
names in it and on the lists that there are, and nothing is changed by it but that lists are added.
-/
namespace LolToolchain

/-- A calculation: it has a value or a fault, and it may add lists. -/
abbrev Calc := StateT Heap (Except Fault)

namespace Calc

variable {α β : Type}

/-- An operation that may add a list. -/
def perform (f : Heap → Except Fault (α × Heap)) : Calc α :=
  f

/-- An operation that leaves the lists as they are. -/
def operate (f : Heap → Except Fault α) : Calc α :=
  perform fun heap => (f heap).map (·, heap)

theorem run_bind (k : Calc α) (f : α → Calc β) (heap : Heap) :
    (k >>= f) heap = (k heap).bind fun r => f r.1 r.2 := rfl

/-- A result of a calculation in two parts. -/
theorem ok_of_bind {k : Calc α} {f : α → Calc β} {heap : Heap} {r : β × Heap}
    (h : (k >>= f) heap = .ok r) : ∃ a after, k heap = .ok (a, after) ∧ f a after = .ok r := by
  rw [run_bind] at h
  cases hk : k heap with
  | error fault =>
    rw [hk] at h
    cases h
  | ok s =>
    rw [hk] at h
    exact ⟨s.1, s.2, rfl, h⟩

end Calc

open Calc

namespace Expr

mutual

/-- The value of an expression, where names have given values. A call has none. -/
def value (read : Text → Value) : Expr → Calc Value
  | .int _ v => pure (.numbr v)
  | .float _ v => pure (.numbar v)
  | .string _ v => pure (.yarn v)
  | .bool _ v => pure (.troof v)
  | .null _ => pure .noob
  | .it _ => pure (read implicitName)
  | .var _ id => pure (read id.name)
  | .interp _ text splices =>
    operate (Splice.fill text splices (splices.map fun x => read x.name.name))
  | .list _ xs => do
    let vs ← values read xs
    perform fun heap => .ok (.bukkit heap.size, heap.push vs.toArray)
  | .call _ _ _ => throw .malformed
  | .concat _ [] => pure (.yarn [])
  | .concat _ [x] => do
    let v ← value read x
    operate fun heap => (Value.yarn []).joined heap v
  | .concat _ (x :: xs) => do
    let v ← value read x
    valueEach read Value.joined v xs
  | .cast _ x t => do
    let v ← value read x
    perform fun heap => v.cast heap t
  | .binary _ op x y => do
    let v ← value read x
    let w ← value read y
    operate fun heap => op.apply heap v w
  | .nary _ op [] => pure (.troof (op == .all))
  | .nary _ _ [x] => do
    let v ← value read x
    perform fun heap => v.cast heap .troof
  | .nary _ op (x :: xs) => do
    let v ← value read x
    valueEach read op.binary.apply v xs
  | .unary _ op x => do
    let v ← value read x
    operate fun heap => op.apply heap v
  | .pickAt _ i x => do
    let v ← value read x
    let w ← value read i
    operate fun heap => v.pick heap w
  | .pickFront _ x => do
    let v ← value read x
    operate fun heap => v.pickEnd heap false
  | .pickBack _ x => do
    let v ← value read x
    operate fun heap => v.pickEnd heap true

/-- The values of expressions in order. -/
def values (read : Text → Value) : List Expr → Calc (List Value)
  | [] => pure []
  | x :: xs => do
    let v ← value read x
    let vs ← values read xs
    return v :: vs

/-- A value combined with those of expressions one after another. -/
def valueEach (read : Text → Value) (f : Heap → Value → Value → Except Fault Value) (v : Value) :
    List Expr → Calc Value
  | [] => pure v
  | x :: xs => do
    let w ← value read x
    let u ← operate fun heap => f heap v w
    valueEach read f u xs

end

variable {read : Text → Value}

mutual

/-- Where an expression stands does not matter for its value. -/
theorem value_unspanned : ∀ x : Expr, x.unspanned.value read = x.value read
  | .int .. | .float .. | .string .. | .bool .. | .null .. | .it .. | .var .. | .call .. => rfl
  | .interp _ text splices => by
    rw [unspanned, value, value, List.map_map]
    congr 1
    funext heap
    simp only [Splice.fill, List.map_map]
    rfl
  | .list _ xs => by rw [unspanned, value, value, values_unspanned xs]
  | .concat _ [] => rfl
  | .concat _ [x] => by
    rw [unspanned, unspannedAll, unspannedAll, value, value, value_unspanned x]
  | .concat _ (x :: y :: ys) => by
    have hys := fun v => valueEach_unspanned Value.joined v (y :: ys)
    rw [unspannedAll] at hys
    simp only [unspanned, unspannedAll, value, value_unspanned x, hys]
  | .cast _ x _ => by rw [unspanned, value, value, value_unspanned x]
  | .binary _ _ x y => by
    rw [unspanned, value, value, value_unspanned x, value_unspanned y]
  | .nary _ _ [] => rfl
  | .nary _ _ [x] => by
    rw [unspanned, unspannedAll, unspannedAll, value, value, value_unspanned x]
  | .nary _ op (x :: y :: ys) => by
    have hys := fun v => valueEach_unspanned op.binary.apply v (y :: ys)
    rw [unspannedAll] at hys
    simp only [unspanned, unspannedAll, value, value_unspanned x, hys]
  | .unary _ _ x => by rw [unspanned, value, value, value_unspanned x]
  | .pickAt _ i x => by
    rw [unspanned, value, value, value_unspanned i, value_unspanned x]
  | .pickFront _ x => by rw [unspanned, value, value, value_unspanned x]
  | .pickBack _ x => by rw [unspanned, value, value, value_unspanned x]

theorem values_unspanned : ∀ xs : List Expr, values read (unspannedAll xs) = values read xs
  | [] => rfl
  | x :: xs => by
    rw [unspannedAll, values, values, value_unspanned x, values_unspanned xs]

theorem valueEach_unspanned (f : Heap → Value → Value → Except Fault Value) : ∀ (v : Value)
    (xs : List Expr), valueEach read f v (unspannedAll xs) = valueEach read f v xs
  | _, [] => rfl
  | v, x :: xs => by
    simp only [unspannedAll, valueEach, value_unspanned x, fun u => valueEach_unspanned f u xs]

end

end Expr
end LolToolchain
