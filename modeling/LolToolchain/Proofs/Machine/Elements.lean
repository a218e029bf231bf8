import LolToolchain.Machine.Sequence
import LolToolchain.Proofs.Text.Decoding
import Mathlib.Algebra.Group.Nat.Defs

/-!
What can be taken out of a list or a string. Both are a row of values, the elements or the characters,
and the length, the elements at an index and those at the ends are all read off this row.
-/
namespace LolToolchain

theorem toOption_eq_some_iff {ε α : Type} {x : Except ε α} {a : α} :
    x.toOption = some a ↔ x = .ok a := by
  cases x <;> simp [Except.toOption]

namespace Value

variable {heap : Heap} {v w : Value} {vs : List Value}

/-- The elements of a list, or the characters of a string. -/
def items (heap : Heap) : Value → Option (List Value)
  | .bukkit r => heap[r]?.map Array.toList
  | .yarn t => some (t.chars.map fun c => .yarn (Text.encodeChar c))
  | _ => none

/-- A list of the heap or a string, each no longer than 64 bits can count. -/
def IsSequence (heap : Heap) : Value → Prop
  | .bukkit r => ∃ elems, heap[r]? = some elems ∧ elems.size < 2 ^ 63
  | .yarn t => t.length < 2 ^ 63
  | _ => False

theorem count_items (h : v.items heap = some vs) :
    v.count heap = .ok (.numbr (Int64.ofNat vs.length)) := by
  cases v with
  | bukkit r =>
    obtain ⟨elems, helems, rfl⟩ := Option.map_eq_some_iff.1 h
    simp [count, elements, helems, bind, Except.bind, pure, Except.pure]
  | yarn t =>
    cases h
    simp [count, Text.charCount, Text.chars, pure, Except.pure]
  | _ => cases h

theorem pick_items (h : v.items heap = some vs) (w : Value) :
    (v.pick heap w).toOption =
      w.toIndex.toOption.bind fun i => if i < 0 then none else vs[i.toNat]? := by
  rw [pick]
  cases w.toIndex with
  | error f => rfl
  | ok i =>
    by_cases hi : i < 0
    · cases v with
      | bukkit r =>
        obtain ⟨elems, helems, rfl⟩ := Option.map_eq_some_iff.1 h
        simp [elements, helems, hi, bind, Except.bind, Except.toOption, throw, throwThe,
          MonadExceptOf.throw]
      | yarn t => simp [hi, bind, Except.bind, Except.toOption, throw, throwThe, MonadExceptOf.throw]
      | _ => cases h
    · cases v with
      | bukkit r =>
        obtain ⟨elems, helems, rfl⟩ := Option.map_eq_some_iff.1 h
        cases hget : elems[i.toNat]? <;>
          simp [elements, helems, hi, hget, bind, Except.bind, Except.toOption, pure, Except.pure,
            throw, throwThe, MonadExceptOf.throw]
      | yarn t =>
        cases h
        have hchar : t.charAt? i.toNat = t.chars[i.toNat]? := by
          rw [Text.charAt?, Text.chars, List.getElem?_map]
        cases hget : t.chars[i.toNat]? <;>
          simp [hchar, hi, hget, bind, Except.bind, Except.toOption, pure, Except.pure, throw,
            throwThe, MonadExceptOf.throw]
      | _ => cases h

private theorem pickEnd_items (h : v.items heap = some vs) (last : Bool) :
    (v.pickEnd heap last).toOption = if last then vs.getLast? else vs.head? := by
  cases v with
  | bukkit r =>
    obtain ⟨elems, helems, rfl⟩ := Option.map_eq_some_iff.1 h
    cases last with
    | true =>
      rw [if_pos rfl, Array.getLast?_toList]
      cases hget : elems.back? <;>
        simp [pickEnd, elements, helems, hget, bind, Except.bind, Except.toOption, pure, Except.pure,
          throw, throwThe, MonadExceptOf.throw]
    | false =>
      rw [if_neg Bool.false_ne_true, List.head?_eq_getElem?, Array.getElem?_toList]
      cases hget : elems[0]? <;>
        simp [pickEnd, elements, helems, hget, bind, Except.bind, Except.toOption, pure, Except.pure,
          throw, throwThe, MonadExceptOf.throw]
  | yarn t =>
    cases h
    cases last with
    | true =>
      rw [if_pos rfl, List.getLast?_map, ← Text.lastChar?_eq]
      cases hget : t.lastChar? <;>
        simp [pickEnd, hget, Except.toOption, pure, Except.pure, throw, throwThe,
          MonadExceptOf.throw]
    | false =>
      rw [if_neg Bool.false_ne_true, List.head?_map, ← Text.firstChar?_eq]
      cases hget : t.firstChar? <;>
        simp [pickEnd, hget, Except.toOption, pure, Except.pure, throw, throwThe,
          MonadExceptOf.throw]
  | _ => cases h

private theorem toOption_pick_of_lt (h : v.items heap = some vs) {i : Nat} (hi : i < 2 ^ 63) :
    (v.pick heap (.numbr (Int64.ofNat i))).toOption = vs[i]? := by
  have hindex : toIndex (.numbr (Int64.ofNat i)) = .ok (i : Int) :=
    congrArg Except.ok (Int64.toInt_ofNat_of_lt hi)
  have hnonneg : ¬(i : Int) < 0 := Int.not_lt.2 (Int.natCast_nonneg i)
  rw [pick_items h, hindex]
  simp only [Except.toOption, Option.bind_some, if_neg hnonneg, Int.toNat_natCast]

/-- The last index, and what is in front of the first one when there is none. -/
private theorem toOption_pick_last (h : v.items heap = some vs) (hlength : vs.length < 2 ^ 63) :
    (v.pick heap (.numbr (Int64.ofNat vs.length - 1))).toOption = vs.getLast? := by
  have hone : (1 : Int64).toInt = 1 := rfl
  have hlast : (Int64.ofNat vs.length - 1).toInt = vs.length - 1 := by
    rw [Int64.toInt_sub, Int64.toInt_ofNat_of_lt hlength, hone, Int.bmod_eq_of_le] <;> omega
  have hindex : toIndex (.numbr (Int64.ofNat vs.length - 1)) = .ok ((vs.length : Int) - 1) :=
    congrArg Except.ok hlast
  rw [pick_items h, hindex, List.getLast?_eq_getElem?]
  by_cases hnil : vs.length = 0
  · rw [List.eq_nil_of_length_eq_zero hnil]
    rfl
  · have hnat : ((vs.length : Int) - 1).toNat = vs.length - 1 := by omega
    rw [← hnat]
    exact if_neg (by omega)

private theorem exists_pick_iff (h : v.items heap = some vs) (w : Value) :
    (∃ u, v.pick heap w = .ok u) ↔ ∃ i : Int, w.toIndex = .ok i ∧ 0 ≤ i ∧ i < vs.length := by
  simp only [← toOption_eq_some_iff, pick_items h, Option.bind_eq_some_iff]
  constructor
  · rintro ⟨u, i, hi, hu⟩
    split at hu
    · cases hu
    · obtain ⟨hlt, -⟩ := List.getElem?_eq_some_iff.1 hu
      exact ⟨i, hi, by omega, by omega⟩
  · rintro ⟨i, hi, hzero, hlt⟩
    refine ⟨vs.get ⟨i.toNat, by omega⟩, i, hi, ?_⟩
    rw [if_neg (by omega)]
    exact List.getElem?_eq_getElem _

private theorem IsSequence.exists_items (hv : v.IsSequence heap) :
    ∃ vs, v.items heap = some vs ∧ vs.length < 2 ^ 63 := by
  cases v with
  | bukkit r =>
    obtain ⟨elems, helems, hsize⟩ := hv
    exact ⟨elems.toList, congrArg (Option.map Array.toList) helems, hsize⟩
  | yarn t =>
    refine ⟨_, rfl, ?_⟩
    rw [List.length_map]
    exact Nat.lt_of_le_of_lt t.length_chars_le hv
  | _ => cases hv

/-- The length of a list or string, its elements at an index and those at its ends fit together, also
in a string that is not well-formed: the indices are the numbers below the length, the ends are the
elements at the first and the last of them, and the characters one after the other are the repaired
string. -/
theorem IsSequence.picks_agree (hv : v.IsSequence heap) :
    ∃ n : Nat, n < 2 ^ 63 ∧ v.count heap = .ok (.numbr (Int64.ofNat n)) ∧
      (∀ w, (∃ u, v.pick heap w = .ok u) ↔ ∃ i : Int, w.toIndex = .ok i ∧ 0 ≤ i ∧ i < n) ∧
      (v.pickEnd heap false).toOption = (v.pick heap (.numbr 0)).toOption ∧
      (v.pickEnd heap true).toOption = (v.pick heap (.numbr (Int64.ofNat n - 1))).toOption ∧
      (∀ last, (v.pickEnd heap last).toOption = none ↔ n = 0) ∧
      ∀ t, v = .yarn t → ∃ us : List Text, us.length = n ∧
        (∀ i u, us[i]? = some u → v.pick heap (.numbr (Int64.ofNat i)) = .ok (.yarn u)) ∧
        t.Repairs us.flatten ∧ ∀ cs, t = Text.ofChars cs → us.flatten = t := by
  obtain ⟨vs, hitems, hlength⟩ := hv.exists_items
  refine ⟨vs.length, hlength, count_items hitems, exists_pick_iff hitems, ?_, ?_, ?_, ?_⟩
  · have hzero := toOption_pick_of_lt hitems (i := 0) (by omega)
    rw [pickEnd_items hitems, if_neg Bool.false_ne_true, List.head?_eq_getElem?]
    exact hzero.symm
  · rw [pickEnd_items hitems, if_pos rfl, toOption_pick_last hitems hlength]
  · intro last
    rw [pickEnd_items hitems]
    cases last <;> simp
  · rintro t rfl
    cases hitems
    refine ⟨t.chars.map Text.encodeChar, by simp, ?_, ?_, ?_⟩
    · intro i u hu
      obtain ⟨hlt, -⟩ := List.getElem?_eq_some_iff.1 hu
      rw [List.length_map] at hlt hlength
      rw [← toOption_eq_some_iff, toOption_pick_of_lt rfl (by omega)]
      rw [List.getElem?_map] at hu ⊢
      obtain ⟨c, hc, rfl⟩ := Option.map_eq_some_iff.1 hu
      rw [hc]
      rfl
    · exact Text.repairs_iff.2 rfl
    · rintro cs rfl
      rw [Text.chars_ofChars]
      rfl

/-- The first two bytes of a character that is cut off, and a byte that begins none. -/
theorem IsSequence.picks_agree_broken :
    ∃ v, v = .yarn [0xE2, 0x82, 0xFF] ∧ IsSequence #[] v ∧
    ∃ n : Nat, n < 2 ^ 63 ∧ v.count #[] = .ok (.numbr (Int64.ofNat n)) ∧
      (∀ w, (∃ u, v.pick #[] w = .ok u) ↔ ∃ i : Int, w.toIndex = .ok i ∧ 0 ≤ i ∧ i < n) ∧
      (v.pickEnd #[] false).toOption = (v.pick #[] (.numbr 0)).toOption ∧
      (v.pickEnd #[] true).toOption = (v.pick #[] (.numbr (Int64.ofNat n - 1))).toOption ∧
      (∀ last, (v.pickEnd #[] last).toOption = none ↔ n = 0) ∧
      ∀ t, v = .yarn t → ∃ us : List Text, us.length = n ∧
        (∀ i u, us[i]? = some u → v.pick #[] (.numbr (Int64.ofNat i)) = .ok (.yarn u)) ∧
        t.Repairs us.flatten ∧ ∀ cs, t = Text.ofChars cs → us.flatten = t := by
  have hbroken : IsSequence #[] (.yarn [0xE2, 0x82, 0xFF]) := by
    simp only [IsSequence, List.length_cons, List.length_nil]
    omega
  exact ⟨_, rfl, hbroken, hbroken.picks_agree⟩

end Value
end LolToolchain
