import LolToolchain.Proofs.Evaluation.Validity
import Mathlib.Data.List.Nodup
import Mathlib.Data.List.Perm.Subperm
import Mathlib.Logic.Relation

/-!
Which lists contain which. Lists are shared, so one can come to contain itself: through the last
reference that was missing, and in no other way. Where no list contains itself, lists are nested no
deeper than there are lists, and each value has a text.
-/
namespace LolToolchain

open Relation

namespace Heap

/-- A list has another one among its elements. -/
def Contains (heap : Heap) (r t : Nat) : Prop :=
  ∃ elems, heap[r]? = some elems ∧ .bukkit t ∈ elems

/-- No list contains itself, directly or through others. -/
def Grounded (heap : Heap) : Prop :=
  ∀ r, ¬ TransGen (Contains heap) r r

/-- A list can be reached from a value: the value is this list, or one that contains it directly or
through others. -/
def Reaches (heap : Heap) (v : Value) (r : Nat) : Prop :=
  ∃ t, v = .bukkit t ∧ ReflTransGen (Contains heap) t r

variable {heap : Heap} {elems : Array Value} {f : Array Value → Array Value} {r t a b : Nat}
variable {v : Value}

theorem grounded_empty : Grounded #[] := by
  intro r h
  obtain ⟨b, ⟨elems, helems, -⟩, -⟩ := TransGen.head'_iff.1 h
  cases helems

private theorem Contains.lt_size (h : Contains heap a b) (hheap : Heap.Whole heap) : b < heap.size := by
  obtain ⟨elems, helems, hb⟩ := h
  exact hheap elems (Array.mem_of_getElem? helems) _ hb

private theorem contains_push (h : Contains (heap.push elems) a b) :
    Contains heap a b ∨ a = heap.size ∧ .bukkit b ∈ elems := by
  obtain ⟨xs, hxs, hb⟩ := h
  rw [Array.getElem?_push] at hxs
  split at hxs
  · rename_i ha
    cases hxs
    exact .inr ⟨ha, hb⟩
  · exact .inl ⟨xs, hxs, hb⟩

/-- A new list contains only old ones, which do not contain it. -/
theorem Grounded.push (h : Grounded heap) (hheap : Heap.Whole heap)
    (helems : ∀ v ∈ elems, v.Whole heap.size) : Grounded (heap.push elems) := by
  have hedge : ∀ {a b}, a < heap.size → Contains (heap.push elems) a b → Contains heap a b := by
    intro a b ha hab
    exact (contains_push hab).resolve_right fun hnew => absurd hnew.1 (Nat.ne_of_lt ha)
  have htarget : ∀ {a b}, Contains (heap.push elems) a b → b < heap.size := by
    intro a b hab
    rcases contains_push hab with hold | ⟨-, hb⟩
    · exact hold.lt_size hheap
    · exact helems _ hb
  have hpath : ∀ {a b}, a < heap.size → TransGen (Contains (heap.push elems)) a b →
      TransGen (Contains heap) a b := by
    intro a b ha hab
    induction hab with
    | single hab => exact .single (hedge ha hab)
    | tail hab hbc ih =>
      obtain ⟨_, -, hab'⟩ := TransGen.tail'_iff.1 hab
      exact ih.tail (hedge (htarget hab') hbc)
  intro r hr
  obtain ⟨_, -, hend⟩ := TransGen.tail'_iff.1 hr
  exact h r (hpath (htarget hend) hr)

private theorem contains_modify (hf : ∀ xs, ∀ u ∈ f xs, u ∈ xs ∨ u = v)
    (h : Contains (heap.modify r f) a b) : Contains heap a b ∨ a = r ∧ v = .bukkit b := by
  obtain ⟨xs, hxs, hb⟩ := h
  rw [Array.getElem?_modify] at hxs
  split at hxs
  · rename_i ha
    obtain ⟨ys, hys, rfl⟩ := Option.map_eq_some_iff.1 hxs
    rcases hf ys _ hb with hold | hnew
    · exact .inl ⟨ys, hys, hold⟩
    · exact .inr ⟨ha.symm, hnew.symm⟩
  · exact .inl ⟨xs, hxs, hb⟩

/-- A path after a value is stored is an old one, or it goes through the list that the value is
stored in: before its first and behind its last use of the new reference it is old. -/
private theorem transGen_modify (hf : ∀ xs, ∀ u ∈ f xs, u ∈ xs ∨ u = v)
    (h : TransGen (Contains (heap.modify r f)) a b) :
    TransGen (Contains heap) a b ∨
      ReflTransGen (Contains heap) a r ∧ ∃ t, v = .bukkit t ∧ ReflTransGen (Contains heap) t b := by
  induction h with
  | single hab =>
    rcases contains_modify hf hab with hold | ⟨rfl, hnew⟩
    · exact .inl (.single hold)
    · exact .inr ⟨.refl, _, hnew, .refl⟩
  | tail hab hbc ih =>
    rcases contains_modify hf hbc with hold | ⟨rfl, hnew⟩
    · exact ih.imp (·.tail hold) fun ⟨har, t, hv, htb⟩ => ⟨har, t, hv, htb.tail hold⟩
    · rcases ih with har | ⟨har, -⟩
      · exact .inr ⟨har.to_reflTransGen, _, hnew, .refl⟩
      · exact .inr ⟨har, _, hnew, .refl⟩

/-- The lists after a value has been stored in one of them. -/
def Stored (heap heap' : Heap) (r : Nat) (v : Value) : Prop :=
  ∃ f : Array Value → Array Value, heap' = heap.modify r f ∧ (∀ xs, ∀ u ∈ f xs, u ∈ xs ∨ u = v) ∧
    ∃ hr : r < heap.size, v ∈ f heap[r]

namespace Stored

variable {heap' : Heap}

theorem size_eq (h : Stored heap heap' r v) : heap'.size = heap.size := by
  obtain ⟨f, rfl, -⟩ := h
  exact Array.size_modify

theorem whole (h : Stored heap heap' r v) (hheap : Heap.Whole heap) (hv : v.Whole heap.size) :
    Heap.Whole heap' := by
  obtain ⟨f, rfl, hf, -⟩ := h
  refine hheap.modify r fun xs hxs u hu => ?_
  rcases hf xs u hu with hu | rfl
  · exact hheap xs hxs u hu
  · exact hv

/-- No list contains itself exactly when the value does not lead to the list it is stored in. -/
theorem grounded_iff (h : Stored heap heap' r v) (hheap : Grounded heap) :
    Grounded heap' ↔ ¬ Reaches heap v r := by
  obtain ⟨f, rfl, hf, hr, hin⟩ := h
  constructor
  · rintro hgrounded ⟨t, rfl, htr⟩
    -- a path up to where it first comes to the list is still there
    have hpath : ∀ {a}, ReflTransGen (Contains heap) a r →
        ReflTransGen (Contains (heap.modify r f)) a r := by
      intro a h
      induction h using ReflTransGen.head_induction_on with
      | refl => exact .refl
      | @head a b hab _ ih =>
        by_cases ha : r = a
        · rw [ha]
        · obtain ⟨xs, hxs, hb⟩ := hab
          refine .head ⟨xs, ?_, hb⟩ ih
          rwa [Array.getElem?_modify, if_neg ha]
    have hnew : Contains (heap.modify r f) r t := by
      refine ⟨f heap[r], ?_, hin⟩
      rw [Array.getElem?_modify, if_pos rfl, Array.getElem?_eq_getElem hr, Option.map_some]
    exact hgrounded r (.head' hnew (hpath htr))
  · intro hunreached a ha
    rcases transGen_modify hf ha with hold | ⟨har, t, hvt, hta⟩
    · exact hheap a hold
    · exact hunreached ⟨t, hvt, hta.trans har⟩

end Stored

theorem allows_append (target v : Value) :
    Allows (fun _ => True) (fun heap' => ∃ r, target = .bukkit r ∧ Stored heap heap' r v)
      (target.append heap v) := by
  cases target with
  | bukkit r =>
    rw [Value.append]
    dsimp only
    split
    · trivial
    · rename_i hr
      exact ⟨r, rfl, (·.push v), rfl, fun xs u hu => Array.mem_push.1 hu, Nat.not_le.1 hr,
        Array.mem_push_self⟩
  | _ => trivial

theorem allows_store (target index v : Value) :
    Allows (fun _ => True) (fun heap' => ∃ r, target = .bukkit r ∧ Stored heap heap' r v)
      (target.store heap index v) := by
  cases target with
  | bukkit r =>
    refine (Allows.of_any _).bind fun i _ => ?_
    have helems : Allows (fun _ => True) (fun elems => heap[r]? = some elems)
        (Value.elements heap r) := by
      rw [Value.elements]
      split
      · assumption
      · trivial
    refine helems.bind fun elems helems => ?_
    obtain ⟨hr, rfl⟩ := Array.getElem?_eq_some_iff.1 helems
    dsimp only
    split
    · trivial
    · rename_i hinside
      exact ⟨r, rfl, (·.setIfInBounds i.toNat v), rfl,
        fun xs u hu => Array.mem_or_eq_of_mem_setIfInBounds hu, hr,
        Array.mem_setIfInBounds (by omega)⟩
  | _ => trivial

/-- A list that is nested too deeply begins a chain of lists. -/
theorem exists_chain_of_endless : ∀ {depth : Nat} {v : Value},
    v.renderTo heap depth = .error .endless →
      ∃ r rs, v = .bukkit r ∧ (r :: rs).IsChain (Contains heap) ∧ rs.length = depth
  | _, .noob, h | _, .troof _, h | _, .numbr _, h | _, .numbar _, h | _, .yarn _, h
  | _, .interp none, h | _, .interp (some _), h | _, .funkshon _, h | _, .unknown _, h => by
    rw [Value.renderTo] at h
    cases h
  | 0, .bukkit r, _ => ⟨r, [], rfl, .singleton r, rfl⟩
  | depth + 1, .bukkit r, h => by
    rw [Value.renderTo] at h
    cases helems : heap[r]? with
    | none =>
      rw [helems] at h
      cases h
    | some elems =>
      rw [helems] at h
      cases hparts : elems.toList.mapM (Value.renderTo heap depth) with
      | ok parts =>
        simp only [hparts] at h
        cases h
      | error e =>
        simp only [hparts] at h
        cases h
        obtain ⟨w, hw, hendless⟩ := mapM_error hparts
        obtain ⟨t, ts, rfl, hchain, hlen⟩ := exists_chain_of_endless hendless
        refine ⟨r, t :: ts, rfl, .cons_cons ⟨elems, helems, Array.mem_toList_iff.1 hw⟩ hchain, ?_⟩
        rw [List.length_cons, hlen]

/-- Each list of a chain but the last contains another one, so it is there. -/
private theorem lt_size_of_mem_dropLast {rs : List Nat} (hchain : rs.IsChain (Contains heap))
    (hr : r ∈ rs.dropLast) : r < heap.size := by
  obtain ⟨i, hi, rfl⟩ := List.getElem_of_mem hr
  rw [List.length_dropLast] at hi
  obtain ⟨elems, helems, -⟩ := List.isChain_iff_getElem.1 hchain i (by omega)
  rw [List.getElem_dropLast]
  exact (Array.getElem?_eq_some_iff.1 helems).1

/-- A chain of lists has no list twice. -/
private theorem Grounded.length_le (h : Grounded heap) {rs : List Nat}
    (hchain : (r :: rs).IsChain (Contains heap)) : rs.length ≤ heap.size := by
  have hpairs : (r :: rs).Pairwise (TransGen (Contains heap)) :=
    List.isChain_iff_pairwise.1 (hchain.imp fun _ _ => .single)
  have hnodup : (r :: rs).dropLast.Nodup := by
    refine (hpairs.sublist (List.dropLast_sublist _)).imp fun {a b} hab heq => ?_
    exact h a (heq ▸ hab)
  have hinside : (r :: rs).dropLast ⊆ List.range heap.size :=
    fun b hb => List.mem_range.2 (lt_size_of_mem_dropLast hchain hb)
  simpa using (List.subperm_of_subset hnodup hinside).length_le

/-- Where no list contains itself, no text is without an end. -/
theorem Grounded.render_ne_endless (h : Grounded heap) (v : Value) :
    v.render heap ≠ .error .endless := by
  intro hrender
  obtain ⟨r, rs, -, hchain, hlen⟩ := exists_chain_of_endless hrender
  have hle := h.length_le hchain
  omega

theorem Grounded.inspect_ne_endless (h : Grounded heap) (v : Value) :
    v.inspect heap ≠ .error .endless := by
  cases v with
  | yarn t => nofun
  | interp t => cases t <;> nofun
  | _ => exact h.render_ne_endless _

/-- Where no list contains itself, each value has a text. -/
theorem Grounded.exists_render (h : Grounded heap) (hheap : Heap.Whole heap)
    (hv : v.Whole heap.size) : ∃ t, v.render heap = .ok t := by
  cases hrender : v.render heap with
  | ok t => exact ⟨t, rfl⟩
  | error e =>
    cases e with
    | broken => exact absurd hrender (Value.renderTo_ne_broken hheap _ hv)
    | endless => exact absurd hrender (h.render_ne_endless v)

theorem Grounded.exists_inspect (h : Grounded heap) (hheap : Heap.Whole heap)
    (hv : v.Whole heap.size) : ∃ t, v.inspect heap = .ok t := by
  cases v with
  | yarn t => exact ⟨_, rfl⟩
  | interp t =>
    cases t with
    | none => cases hv
    | some t => exact ⟨_, rfl⟩
  | _ => exact h.exists_render hheap hv

end Heap
end LolToolchain
