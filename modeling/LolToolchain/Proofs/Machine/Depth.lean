import LolToolchain.Proofs.Machine.Containment

/-!
How deep lists are nested. A text that is there at some depth is there at every greater one, and a
value that is nested deeper than there are lists has no text at any depth.
-/
namespace LolToolchain

section

variable {α β ε : Type} {f g : α → Except ε β} {e : ε}

/-- What does not end with an error does not depend on what is changed behind that error. -/
theorem mapM_eq_of_ne : ∀ {xs : List α}, xs.mapM f ≠ .error e →
    (∀ x ∈ xs, f x ≠ .error e → g x = f x) → xs.mapM g = xs.mapM f
  | [], _, _ => rfl
  | x :: xs, hne, heq => by
    rw [List.mapM_cons] at hne
    rw [List.mapM_cons, List.mapM_cons]
    obtain ⟨hx, hxs⟩ := List.forall_mem_cons.1 heq
    cases hfx : f x with
    | error e' =>
      rw [hfx] at hne
      have hne' : f x ≠ .error e := fun heq => hne (by rw [← hfx, heq]; rfl)
      rw [hx hne', hfx]
      rfl
    | ok y =>
      rw [hx (by rw [hfx]; nofun), hfx]
      have hrest : xs.mapM f ≠ .error e := by
        intro hrest
        rw [hfx] at hne
        exact hne (by rw [hrest]; rfl)
      rw [mapM_eq_of_ne hrest hxs]

/-- An error that goes away goes away at an element. -/
theorem exists_ne_of_mapM {xs : List α} (hf : xs.mapM f = .error e) (hg : xs.mapM g ≠ .error e)
    (heq : ∀ x ∈ xs, f x ≠ .error e → g x = f x) : ∃ x ∈ xs, f x = .error e ∧ g x ≠ .error e := by
  by_contra hnone
  push Not at hnone
  have hsame : ∀ x ∈ xs, g x ≠ .error e → f x = g x := by
    intro x hx hgx
    by_cases hfx : f x = .error e
    · exact absurd (hnone x hx hfx) hgx
    · exact (heq x hx hfx).symm
  exact hg ((mapM_eq_of_ne hg hsame).symm.trans hf)

end

namespace Value

variable {heap : Heap} {v : Value} {r m n : Nat}

theorem renderTo_bukkit {elems : Array Value} (h : heap[r]? = some elems) (n : Nat) :
    renderTo heap (n + 1) (.bukkit r) =
      (elems.toList.mapM (renderTo heap n)).map fun parts => "[" ++ Text.join ", " parts ++ "]" := by
  simp only [renderTo, h]
  cases elems.toList.mapM (renderTo heap n) <;> rfl

/-- A text stays the same at a greater depth. -/
theorem renderTo_succ : ∀ {n : Nat} {v : Value}, v.renderTo heap n ≠ .error .endless →
    v.renderTo heap (n + 1) = v.renderTo heap n
  | _, .noob, _ | _, .troof _, _ | _, .numbr _, _ | _, .numbar _, _ | _, .yarn _, _
  | _, .interp none, _ | _, .interp (some _), _ | _, .funkshon _, _ | _, .unknown _, _ => by
    simp only [renderTo]
  | 0, .bukkit r, h => absurd (by rw [renderTo]) h
  | n + 1, .bukkit r, h => by
    cases helems : heap[r]? with
    | none => simp only [renderTo, helems]
    | some elems =>
      rw [renderTo_bukkit helems] at h ⊢
      rw [renderTo_bukkit helems]
      refine congrArg _ (mapM_eq_of_ne (e := .endless) (fun hparts => h ?_) fun _ _ => renderTo_succ)
      rw [hparts]
      rfl

theorem renderTo_of_le (h : v.renderTo heap m ≠ .error .endless) (hmn : m ≤ n) :
    v.renderTo heap n = v.renderTo heap m := by
  obtain ⟨k, rfl⟩ := Nat.exists_eq_add_of_le hmn
  induction k with
  | zero => rfl
  | succ k ih =>
    have hk := ih (Nat.le_add_right _ _)
    rw [← Nat.add_assoc, renderTo_succ (by rwa [hk]), hk]

/-- A value is nested to a depth and no deeper. -/
def Nested (heap : Heap) (n : Nat) (v : Value) : Prop :=
  v.renderTo heap n = .error .endless ∧ v.renderTo heap (n + 1) ≠ .error .endless

private theorem Nested.unique (hm : v.Nested heap m) (hn : v.Nested heap n) : m = n := by
  rcases Nat.lt_trichotomy m n with hlt | rfl | hlt
  · exact absurd ((renderTo_of_le hm.2 hlt).symm.trans hn.1) hm.2
  · rfl
  · exact absurd ((renderTo_of_le hn.2 hlt).symm.trans hm.1) hn.2

/-- A list with lists in it has one that is nested one level less. -/
private theorem Nested.exists_element (h : v.Nested heap (n + 1)) :
    ∃ r, v = .bukkit r ∧ r < heap.size ∧ ∃ w : Value, w.Nested heap n := by
  obtain ⟨hdeep, hshallow⟩ := h
  obtain ⟨r, -, rfl, -, -⟩ := Heap.exists_chain_of_endless hdeep
  cases helems : heap[r]? with
  | none =>
    rw [renderTo, helems] at hdeep
    cases hdeep
  | some elems =>
    rw [renderTo_bukkit helems] at hdeep hshallow
    have hparts : elems.toList.mapM (renderTo heap n) = .error .endless := by
      cases hparts : elems.toList.mapM (renderTo heap n) with
      | ok parts =>
        rw [hparts] at hdeep
        cases hdeep
      | error err =>
        rw [hparts] at hdeep
        cases hdeep
        rfl
    have hparts' : elems.toList.mapM (renderTo heap (n + 1)) ≠ .error .endless := by
      intro hparts'
      rw [hparts'] at hshallow
      exact hshallow rfl
    obtain ⟨w, -, hw⟩ := exists_ne_of_mapM hparts hparts' fun _ _ => renderTo_succ
    exact ⟨r, rfl, (Array.getElem?_eq_some_iff.1 helems).1, w, hw⟩

/-- Lists that are nested to a finite depth are nested no deeper than there are lists: on the way
down, each level has a list of its own. -/
private theorem Nested.le_size (h : v.Nested heap n) : n ≤ heap.size := by
  have hlists : ∀ {n : Nat} {v : Value}, v.Nested heap n →
      ∃ rs : List Nat, rs.length = n ∧ rs.Nodup ∧
        ∀ r ∈ rs, r < heap.size ∧ ∃ k, 0 < k ∧ k ≤ n ∧ (Value.bukkit r).Nested heap k := by
    intro n
    induction n with
    | zero => exact fun _ => ⟨[], rfl, .nil, nofun⟩
    | succ n ih =>
      intro v hv
      obtain ⟨r, rfl, hr, w, hw⟩ := hv.exists_element
      obtain ⟨rs, hlen, hnodup, hrs⟩ := ih hw
      refine ⟨r :: rs, congrArg Nat.succ hlen, List.nodup_cons.2 ⟨fun hmem => ?_, hnodup⟩, ?_⟩
      · obtain ⟨-, k, -, hk, hnested⟩ := hrs r hmem
        have := hv.unique hnested
        omega
      · refine List.forall_mem_cons.2 ⟨⟨hr, n + 1, by omega, Nat.le_refl _, hv⟩, fun t ht => ?_⟩
        obtain ⟨hlt, k, hpos, hk, hnested⟩ := hrs t ht
        exact ⟨hlt, k, hpos, by omega, hnested⟩
  obtain ⟨rs, rfl, hnodup, hrs⟩ := hlists h
  have hinside : rs ⊆ List.range heap.size := fun r hr => List.mem_range.2 (hrs r hr).1
  simpa using (List.subperm_of_subset hnodup hinside).length_le

/-- The text of a value does not depend on how deep lists may be nested, if there may be one level
more than there are lists. -/
theorem renderTo_of_size_lt (h : heap.size < n) : v.renderTo heap n = v.render heap := by
  by_cases hend : v.render heap = .error .endless
  · obtain ⟨k, rfl⟩ := Nat.exists_eq_add_of_le h
    rw [hend]
    induction k with
    | zero => exact hend
    | succ k ih =>
      by_contra hne
      have hnested : v.Nested heap (heap.size + 1 + k) := ⟨ih (by omega), hne⟩
      have hle := hnested.le_size
      omega
  · exact renderTo_of_le hend h

end Value
end LolToolchain
