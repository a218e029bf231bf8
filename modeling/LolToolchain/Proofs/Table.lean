/-! Tables as lists of pairs, in which the first entry with a key counts. -/
namespace LolToolchain

variable {α β : Type} [BEq α] [LawfulBEq α] {t : List (α × β)} {key key' : α} {b : β}

/-- An entry with another key does not count. -/
theorem lookup_cons_of_ne (h : key' ≠ key) : ((key, b) :: t).lookup key' = t.lookup key' := by
  rw [List.lookup_cons, beq_eq_false_iff_ne.2 h]

/-- Whether there is no entry with a key. -/
theorem lookup_eq_none_iff : t.lookup key = none ↔ key ∉ t.map Prod.fst := by
  rw [List.lookup_eq_none_iff, List.mem_map]
  refine ⟨fun h hmem => ?_, fun h p hp => ?_⟩
  · obtain ⟨p, hp, rfl⟩ := hmem
    simpa using h p hp
  · exact bne_iff_ne.2 fun heq => h ⟨p, hp, heq.symm⟩

/-- A table without the entries of a key. -/
theorem lookup_filter_self : (t.filter fun r => r.1 != key).lookup key = none := by
  rw [lookup_eq_none_iff, List.mem_map]
  rintro ⟨p, hp, rfl⟩
  simpa using (List.mem_filter.1 hp).2

theorem lookup_filter_of_ne (h : key' ≠ key) :
    (t.filter fun r => r.1 != key).lookup key' = t.lookup key' := by
  induction t with
  | nil => rfl
  | cons r rows ih =>
    obtain ⟨k, row⟩ := r
    by_cases hk : k = key
    · rw [List.filter_cons_of_neg (by simp [hk]), ih, lookup_cons_of_ne (hk ▸ h)]
    · rw [List.filter_cons_of_pos (by simp [hk]), List.lookup_cons, List.lookup_cons, ih]

/-- A table with a new entry in the place of the old ones of its key. -/
theorem lookup_cons_filter_of_ne (h : key' ≠ key) :
    ((key, b) :: t.filter fun r => r.1 != key).lookup key' = t.lookup key' :=
  (lookup_cons_of_ne h).trans (lookup_filter_of_ne h)

end LolToolchain
