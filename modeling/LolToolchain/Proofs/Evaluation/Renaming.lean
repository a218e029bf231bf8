import LolToolchain.Proofs.Evaluation.Calculation
import LolToolchain.Proofs.Machine.Depth

/-!
Renamed lists. References are opaque to a program: where lists stand under other references, and
there may be further ones, a calculation does the same and gives the renamed value.
-/
namespace LolToolchain

variable {ρ : Nat → Nat} {heap heap' : Heap} {v w : Value}

/-- A value with its reference renamed. -/
def Value.rename (ρ : Nat → Nat) : Value → Value
  | .bukkit r => .bukkit (ρ r)
  | v => v

/-- The lists of one heap are in another one under other references, and new lists get references
that correspond. -/
structure Heap.Renamed (ρ : Nat → Nat) (heap heap' : Heap) : Prop where
  injective : ρ.Injective
  lists : ∀ r, heap'[ρ r]? = heap[r]?.map fun elems => elems.map (Value.rename ρ)
  fresh : ∀ i, ρ (heap.size + i) = heap'.size + i

namespace Heap.Renamed

theorem elements (h : Renamed ρ heap heap') (r : Nat) :
    Value.elements heap' (ρ r) =
      (Value.elements heap r).map fun elems => elems.map (Value.rename ρ) := by
  rw [Value.elements, Value.elements, h.lists]
  cases heap[r]? <;> rfl

/-- A list is added on both sides. -/
theorem push (h : Renamed ρ heap heap') (vs : List Value) :
    Renamed ρ (heap.push vs.toArray) (heap'.push (vs.map (Value.rename ρ)).toArray) where
  injective := h.injective
  lists r := by
    have hsize : ρ heap.size = heap'.size := h.fresh 0
    rw [Array.getElem?_push, Array.getElem?_push, ← hsize]
    by_cases hr : r = heap.size
    · rw [if_pos (congrArg ρ hr), if_pos hr]
      simp
    · rw [if_neg (h.injective.ne hr), if_neg hr]
      exact h.lists r
  fresh i := by
    have hnext := h.fresh (1 + i)
    rw [Array.size_push, Array.size_push]
    rwa [← Nat.add_assoc, ← Nat.add_assoc] at hnext

end Heap.Renamed

namespace Value

theorem truthy_rename (h : Heap.Renamed ρ heap heap') (v : Value) :
    (v.rename ρ).truthy heap' = v.truthy heap := by
  cases v with
  | bukkit r =>
    simp only [truthy, rename, truthy?, h.lists]
    cases heap[r]? <;> simp [Array.isEmpty]
  | _ => rfl

private theorem renderTo_rename (h : Heap.Renamed ρ heap heap') : ∀ (depth : Nat) (v : Value),
    (v.rename ρ).renderTo heap' depth = v.renderTo heap depth
  | _, .noob | _, .troof _ | _, .numbr _ | _, .numbar _ | _, .yarn _ | _, .interp none
  | _, .interp (some _) | _, .funkshon _ | _, .unknown _ => by
    simp only [rename, renderTo]
  | 0, .bukkit r => by simp only [rename, renderTo]
  | depth + 1, .bukkit r => by
    simp only [rename, renderTo, h.lists]
    cases heap[r]? with
    | none => rfl
    | some elems =>
      have hparts : (elems.toList.map (rename ρ)).mapM (renderTo heap' depth) =
          elems.toList.mapM (renderTo heap depth) := by
        rw [List.mapM_map]
        congr 1
        funext v
        exact renderTo_rename h depth v
      simp only [Option.map_some, Array.toList_map, hparts]

theorem text_rename (h : Heap.Renamed ρ heap heap') (v : Value) :
    (v.rename ρ).text heap' = v.text heap := by
  have hrender : (v.rename ρ).render heap' = v.render heap := by
    obtain ⟨n, hn, hn'⟩ : ∃ n, heap.size < n ∧ heap'.size < n :=
      ⟨heap.size + heap'.size + 1, by omega, by omega⟩
    rw [← renderTo_of_size_lt hn', renderTo_rename h, renderTo_of_size_lt hn]
  rw [text, text, hrender]

@[simp] theorem ofValue_rename (v : Value) : Number.ofValue (v.rename ρ) = Number.ofValue v := by
  cases v <;> rfl

theorem equal_rename (hρ : ρ.Injective) (v w : Value) :
    (v.rename ρ).equal (w.rename ρ) = v.equal w := by
  cases v <;> cases w <;> first | rfl | simp [rename, equal, hρ.eq_iff]

@[simp] theorem rename_toValue (x : Number) : x.toValue.rename ρ = x.toValue := by
  cases x <;> rfl

private theorem toIndex_rename (v : Value) : (v.rename ρ).toIndex = v.toIndex := by
  rw [toIndex, toIndex, ofValue_rename]

theorem joined_rename (h : Heap.Renamed ρ heap heap') (v w : Value) :
    (v.rename ρ).joined heap' (w.rename ρ) = (v.joined heap w).map (rename ρ) := by
  rw [joined, joined, text_rename h, text_rename h]
  cases v.text heap with
  | error f => rfl
  | ok t => cases w.text heap <;> rfl

theorem pick_rename (h : Heap.Renamed ρ heap heap') (v i : Value) :
    (v.rename ρ).pick heap' (i.rename ρ) = (v.pick heap i).map (rename ρ) := by
  rw [pick, pick, toIndex_rename]
  cases i.toIndex with
  | error f => rfl
  | ok n =>
    cases v with
    | bukkit r =>
      simp only [rename, h.elements]
      cases elements heap r with
      | error f => rfl
      | ok elems =>
        simp only [bind, Except.bind, Except.map, Array.size_map, Array.getElem?_map]
        split
        · rfl
        · cases elems[n.toNat]? <;> rfl
    | yarn t =>
      simp only [rename, bind, Except.bind]
      split
      · rfl
      · cases t.charAt? n.toNat <;> rfl
    | _ => rfl

theorem pickEnd_rename (h : Heap.Renamed ρ heap heap') (v : Value) (last : Bool) :
    (v.rename ρ).pickEnd heap' last = (v.pickEnd heap last).map (rename ρ) := by
  cases v with
  | bukkit r =>
    simp only [pickEnd, rename, h.elements]
    cases elements heap r with
    | error f => rfl
    | ok elems =>
      simp only [bind, Except.bind, Except.map, Array.getElem?_map, Array.back?_map]
      cases last
      · cases elems[0]? <;> rfl
      · cases elems.back? <;> rfl
  | yarn t =>
    simp only [pickEnd, rename]
    cases (if last = true then t.lastChar? else t.firstChar?) <;> rfl
  | _ => rfl

private theorem count_rename (h : Heap.Renamed ρ heap heap') (v : Value) :
    (v.rename ρ).count heap' = (v.count heap).map (rename ρ) := by
  cases v with
  | bukkit r =>
    simp only [count, rename, h.elements]
    cases elements heap r with
    | error f => rfl
    | ok elems => simp [bind, Except.bind, Except.map, rename, pure, Except.pure]
  | _ => rfl

end Value

private theorem Arithmetic.eval_rename (op : Arithmetic) (v w : Value) :
    op.eval (v.rename ρ) (w.rename ρ) = (op.eval v w).map (Value.rename ρ) := by
  rw [eval, eval, Value.ofValue_rename, Value.ofValue_rename]
  cases Number.ofValue v with
  | error f => rfl
  | ok x =>
    cases Number.ofValue w with
    | error f => rfl
    | ok y =>
      simp only [bind, Except.bind]
      cases op.apply x y with
      | error f => rfl
      | ok z => simp [pure, Except.pure, Except.map]

private theorem Comparison.eval_rename (op : Comparison) (v w : Value) :
    op.eval (v.rename ρ) (w.rename ρ) = op.eval v w := by
  rw [eval, eval, Value.ofValue_rename, Value.ofValue_rename]

theorem BinaryOp.apply_rename (h : Heap.Renamed ρ heap heap') (op : BinaryOp) (v w : Value) :
    op.apply heap' (v.rename ρ) (w.rename ρ) = (op.apply heap v w).map (Value.rename ρ) := by
  have htruth (r : Except Fault Bool) : r.map Value.troof = (r.map Value.troof).map (Value.rename ρ) := by
    cases r <;> rfl
  cases op with
  | add | sub | mul | div | mod | min | max => exact Arithmetic.eval_rename _ v w
  | equal | notEqual =>
    rw [apply, apply, Value.equal_rename h.injective]
    rfl
  | gt | lt | ge | le =>
    rw [apply, apply, Comparison.eval_rename]
    exact htruth _
  | and | or | xor =>
    simp only [apply, Value.truthy_rename h]
    cases v.truthy heap with
    | error f => rfl
    | ok b => cases w.truthy heap <;> cases b <;> rfl

theorem UnaryOp.apply_rename (h : Heap.Renamed ρ heap heap') (op : UnaryOp) (v : Value) :
    op.apply heap' (v.rename ρ) = (op.apply heap v).map (Value.rename ρ) := by
  cases op with
  | not =>
    simp only [apply, Value.truthy_rename h]
    cases v.truthy heap <;> rfl
  | length => exact Value.count_rename h v

theorem Splice.fill_rename (h : Heap.Renamed ρ heap heap') (text : Text) (splices : List Splice)
    (vs : List Value) : fill text splices (vs.map (Value.rename ρ)) heap' =
      (fill text splices vs heap).map (Value.rename ρ) := by
  have hparts : (vs.map (Value.rename ρ)).mapM (Value.text heap') = vs.mapM (Value.text heap) := by
    rw [List.mapM_map]
    congr 1
    funext v
    exact Value.text_rename h v
  simp only [fill, hparts]
  cases vs.mapM (Value.text heap) with
  | error f => rfl
  | ok parts =>
    simp only [bind, Except.bind]
    cases Template.fill _ parts <;> rfl

/-- One heap has the lists of another one, and maybe more. -/
def Heap.Adds (heap heap' : Heap) : Prop :=
  heap.toList <+: heap'.toList

theorem Value.Whole.rename_eq {n : Nat} (h : v.Whole n) (hρ : ∀ r < n, ρ r = r) :
    v.rename ρ = v := by
  cases v with
  | bukkit r => exact congrArg Value.bukkit (hρ r h)
  | _ => rfl

/-- Where there are further lists, the old ones keep their references, and new ones come behind. -/
theorem Heap.Renamed.exists_of_adds (hheap : Heap.Whole heap) (h : Heap.Adds heap heap') :
    ∃ ρ, (∀ r < heap.size, ρ r = r) ∧ Heap.Renamed ρ heap heap' := by
  obtain ⟨further, hfurther⟩ := h
  have hsize : heap'.size = heap.size + further.length := by
    rw [← Array.length_toList, ← hfurther, List.length_append, Array.length_toList]
  obtain ⟨ρ, hold, hnew⟩ : ∃ ρ : Nat → Nat, (∀ r < heap.size, ρ r = r) ∧
      ∀ i, ρ (heap.size + i) = heap'.size + i := by
    refine ⟨fun r => if r < heap.size then r else r + further.length, fun r hr => if_pos hr,
      fun i => ?_⟩
    rw [hsize]
    exact (if_neg (by omega)).trans (by omega)
  have hcases (r : Nat) : r < heap.size ∨ ∃ i, r = heap.size + i :=
    (Nat.lt_or_ge r heap.size).imp_right Nat.exists_eq_add_of_le
  refine ⟨ρ, hold, fun a b hab => ?_, fun r => ?_, hnew⟩
  · rcases hcases a with ha | ⟨i, rfl⟩ <;> rcases hcases b with hb | ⟨j, rfl⟩
    · rwa [hold a ha, hold b hb] at hab
    · rw [hold a ha, hnew j] at hab
      omega
    · rw [hnew i, hold b hb] at hab
      omega
    · rw [hnew i, hnew j] at hab
      omega
  · rcases hcases r with hr | ⟨i, rfl⟩
    · have hkept : heap'[r]? = some heap[r] := by
        rw [← Array.getElem?_toList, ← hfurther, List.getElem?_append_left (by simpa using hr),
          Array.getElem?_toList, Array.getElem?_eq_getElem hr]
      have hsame : heap[r].map (Value.rename ρ) = heap[r] := by
        rw [Array.map_congr_left fun v hv => (hheap _ (Array.getElem_mem hr) v hv).rename_eq hold,
          Array.map_id_fun']
        rfl
      rw [hold r hr, hkept, Array.getElem?_eq_getElem hr, Option.map_some, hsame]
    · rw [hnew i, Array.getElem?_eq_none (by omega), Array.getElem?_eq_none (by omega)]
      rfl

namespace Calc

open Heap (Adds)

variable {α β : Type} {φ : α → α} {ψ : β → β}

/-- What two calculations give: the same fault, or results that correspond. -/
def Corresponds (ρ : Nat → Nat) (φ : α → α) (heap : Heap) :
    Except Fault (α × Heap) → Except Fault (α × Heap) → Prop
  | .ok (a, after), r' =>
    Adds heap after ∧ ∃ after', r' = .ok (φ a, after') ∧ Heap.Renamed ρ after after'
  | .error f, r' => r' = .error f

/-- Two calculations do the same, one with lists under other references. -/
def Mirrors (ρ : Nat → Nat) (φ : α → α) (k k' : Calc α) : Prop :=
  ∀ heap heap', Heap.Renamed ρ heap heap' → Corresponds ρ φ heap (k heap) (k' heap')

theorem mirrors_pure {a a' : α} (ha : a' = φ a) : Mirrors ρ φ (pure a) (pure a') :=
  fun _ heap' h => ⟨List.prefix_rfl, heap', by rw [ha]; rfl, h⟩

private theorem mirrors_throw (f : Fault) : Mirrors ρ φ (throw f) (throw f) :=
  fun _ _ _ => rfl

theorem Mirrors.bind {k k' : Calc α} {f f' : α → Calc β} (hk : Mirrors ρ φ k k')
    (hf : ∀ a, Mirrors ρ ψ (f a) (f' (φ a))) : Mirrors ρ ψ (k >>= f) (k' >>= f') := by
  intro heap heap' h
  have hk := hk heap heap' h
  rw [run_bind, run_bind]
  cases hr : k heap with
  | error fault =>
    rw [hr] at hk
    rw [show k' heap' = .error fault from hk]
    rfl
  | ok r =>
    obtain ⟨a, after⟩ := r
    rw [hr] at hk
    obtain ⟨hadds, after', hr', hafter⟩ := hk
    rw [hr']
    have hnext := hf a after after' hafter
    simp only [Except.bind]
    cases hs : f a after with
    | error fault =>
      rw [hs] at hnext
      exact hnext
    | ok s =>
      rw [hs] at hnext
      obtain ⟨hadds', hrest⟩ := hnext
      exact ⟨hadds.trans hadds', hrest⟩

theorem mirrors_operate {f f' : Heap → Except Fault α}
    (hf : ∀ heap heap', Heap.Renamed ρ heap heap' → f' heap' = (f heap).map φ) :
    Mirrors ρ φ (operate f) (operate f') := by
  intro heap heap' h
  simp only [operate, perform, hf heap heap' h]
  cases f heap with
  | error fault => rfl
  | ok a => exact ⟨List.prefix_rfl, heap', rfl, h⟩

/-- A new list. -/
theorem mirrors_list (vs : List Value) :
    Mirrors ρ (Value.rename ρ) (perform fun heap => .ok (.bukkit heap.size, heap.push vs.toArray))
      (perform fun heap =>
        .ok (.bukkit heap.size, heap.push (vs.map (Value.rename ρ)).toArray)) := by
  intro heap heap' h
  refine ⟨by simp [Adds], _, ?_, h.push vs⟩
  rw [Value.rename, show ρ heap.size = heap'.size from h.fresh 0]
  rfl

private theorem mirrors_cast (v : Value) (t : TypeName) :
    Mirrors ρ (Value.rename ρ) (perform fun heap => v.cast heap t)
      (perform fun heap => (v.rename ρ).cast heap t) := by
  intro heap heap' h
  have hkept (u : Value) : Corresponds ρ (Value.rename ρ) heap (.ok (u, heap))
      (.ok (u.rename ρ, heap')) := ⟨List.prefix_rfl, heap', rfl, h⟩
  simp only [perform]
  cases t with
  | noob => exact hkept .noob
  | troof =>
    simp only [Value.cast, Value.truthy_rename h]
    cases v.truthy heap with
    | error f => rfl
    | ok b => exact hkept (.troof b)
  | yarn =>
    simp only [Value.cast, Value.text_rename h]
    cases v.text heap with
    | error f => rfl
    | ok t => exact hkept (.yarn t)
  | numbr =>
    simp only [Value.cast, Value.ofValue_rename]
    cases Number.ofValue v with
    | error f => rfl
    | ok x =>
      simp only [bind, Except.bind]
      cases x.toNumbr with
      | error f => rfl
      | ok n => exact hkept (.numbr n)
  | numbar =>
    simp only [Value.cast, Value.ofValue_rename]
    cases Number.ofValue v with
    | error f => rfl
    | ok x => exact hkept (.numbar x.toNumbar)
  | bukkit =>
    cases v with
    | bukkit r => exact hkept (.bukkit r)
    | noob => exact mirrors_list [] heap heap' h
    | _ => rfl

end Calc

open Calc

open Heap (Adds)

namespace Expr

variable {read read' : Text → Value}

mutual

/-- An expression does the same where lists stand under other references. -/
theorem mirrors (hread : ∀ name, read' name = (read name).rename ρ) : ∀ x : Expr,
    Mirrors ρ (Value.rename ρ) (x.value read) (x.value read')
  | .int .. | .float .. | .string .. | .bool .. | .null .. | .concat _ [] | .nary _ _ [] =>
    mirrors_pure rfl
  | .it _ | .var _ _ => mirrors_pure (hread _)
  | .call .. => mirrors_throw _
  | .interp _ text splices => by
    have hvs : (splices.map fun x => read' x.name.name) =
        (splices.map fun x => read x.name.name).map (Value.rename ρ) := by
      rw [List.map_map]
      exact List.map_congr_left fun x _ => hread x.name.name
    rw [value, value, hvs]
    exact mirrors_operate fun _ _ h => Splice.fill_rename h text splices _
  | .list _ xs => (mirrors_values hread xs).bind fun vs => mirrors_list vs
  | .concat _ [x] => (mirrors hread x).bind fun v => mirrors_operate fun _ _ h =>
      Value.joined_rename h (.yarn []) v
  | .concat _ (x :: y :: ys) => (mirrors hread x).bind fun v =>
      mirrors_valueEach hread (fun _ _ h => Value.joined_rename h) v (y :: ys)
  | .cast _ x t => (mirrors hread x).bind fun v => mirrors_cast v t
  | .binary _ op x y => (mirrors hread x).bind fun v => (mirrors hread y).bind fun w =>
      mirrors_operate fun _ _ h => op.apply_rename h v w
  | .nary _ _ [x] => (mirrors hread x).bind fun v => mirrors_cast v .troof
  | .nary _ op (x :: y :: ys) => (mirrors hread x).bind fun v =>
      mirrors_valueEach hread (fun _ _ h => op.binary.apply_rename h) v (y :: ys)
  | .unary _ op x => (mirrors hread x).bind fun v => mirrors_operate fun _ _ h =>
      op.apply_rename h v
  | .pickAt _ i x => (mirrors hread x).bind fun v => (mirrors hread i).bind fun w =>
      mirrors_operate fun _ _ h => Value.pick_rename h v w
  | .pickFront _ x => (mirrors hread x).bind fun v => mirrors_operate fun _ _ h =>
      Value.pickEnd_rename h v false
  | .pickBack _ x => (mirrors hread x).bind fun v => mirrors_operate fun _ _ h =>
      Value.pickEnd_rename h v true

theorem mirrors_values (hread : ∀ name, read' name = (read name).rename ρ) : ∀ xs : List Expr,
    Mirrors ρ (List.map (Value.rename ρ)) (values read xs) (values read' xs)
  | [] => mirrors_pure rfl
  | x :: xs => (mirrors hread x).bind fun _ => (mirrors_values hread xs).bind fun _ =>
      mirrors_pure rfl

theorem mirrors_valueEach (hread : ∀ name, read' name = (read name).rename ρ)
    {f : Heap → Value → Value → Except Fault Value}
    (hf : ∀ heap heap', Heap.Renamed ρ heap heap' → ∀ v w,
      f heap' (v.rename ρ) (w.rename ρ) = (f heap v w).map (Value.rename ρ)) :
    ∀ (v : Value) (xs : List Expr), Mirrors ρ (Value.rename ρ) (valueEach read f v xs)
      (valueEach read' f (v.rename ρ) xs)
  | _, [] => mirrors_pure rfl
  | v, x :: xs => (mirrors hread x).bind fun w =>
      (mirrors_operate fun heap heap' h => hf heap heap' h v w).bind fun u =>
        mirrors_valueEach hread hf u xs

end

/-- An expression only adds lists. -/
theorem adds_of_value {x : Expr} {v : Value} {after : Heap}
    (h : x.value read heap = .ok (v, after)) : Adds heap after := by
  have hid (v : Value) : v.rename id = v := by cases v <;> rfl
  have hself : Heap.Renamed id heap heap := by
    refine ⟨Function.injective_id, fun r => ?_, fun i => rfl⟩
    simp [funext hid]
  have hread (name : Text) : read name = (read name).rename id := (hid (read name)).symm
  have hx := mirrors hread x heap heap hself
  rw [h] at hx
  exact hx.1

/-- Lists that are there beside those an expression can see change nothing for it: it has the same
fault, or its value is the same but for references to lists that it made itself. -/
theorem value_of_adds (hheap : Heap.Whole heap) (hread : ∀ name, (read name).Whole heap.size)
    (hadds : Adds heap heap') (x : Expr) :
    ∃ ρ, Corresponds ρ (Value.rename ρ) heap (x.value read heap) (x.value read heap') := by
  obtain ⟨ρ, hρ, hrenamed⟩ := Heap.Renamed.exists_of_adds hheap hadds
  exact ⟨ρ, mirrors (fun name => ((hread name).rename_eq hρ).symm) x heap heap' hrenamed⟩

end Expr
end LolToolchain
