import LolToolchain.Numbar.Reading

/-!
The parts of a floating-point number, equality of defined numbers, and the numbers that texts spell,
which are finite.
-/
namespace LolToolchain.Numbar

variable {negative : Bool} {m : Nat}

theorem toNat_ofMagnitude (h : m < signBit) :
    (ofMagnitude negative m).bits.toNat = m + if negative then signBit else 0 := by
  have hsign : signBit = 0x8000000000000000 := rfl
  refine UInt64.toNat_ofNat_of_lt' ?_
  rw [UInt64.size]
  split <;> omega

@[simp]
theorem magnitude_ofMagnitude (h : m < signBit) : (ofMagnitude negative m).magnitude = m := by
  rw [magnitude, toNat_ofMagnitude h]
  cases negative with
  | false => exact Nat.mod_eq_of_lt h
  | true => exact (Nat.add_mod_right m signBit).trans (Nat.mod_eq_of_lt h)

@[simp]
theorem isNegative_ofMagnitude (h : m < signBit) : (ofMagnitude negative m).isNegative = negative := by
  rw [isNegative, toNat_ofMagnitude h]
  cases negative with
  | false => exact decide_eq_false (Nat.not_le.2 h)
  | true => exact decide_eq_true (Nat.le_add_left _ _)

/-- A number is its sign and its magnitude. -/
theorem ofMagnitude_magnitude (x : Numbar) : ofMagnitude x.isNegative x.magnitude = x := by
  have hsign : signBit = 0x8000000000000000 := rfl
  have hbits : x.bits.toNat < 0x10000000000000000 := x.bits.toNat_lt
  have heq : (x.magnitude + if x.isNegative then signBit else 0) = x.bits.toNat := by
    rw [magnitude, isNegative]
    split
    · rename_i h
      have hle := of_decide_eq_true h
      rw [hsign] at hle ⊢
      omega
    · rename_i h
      have hlt := of_decide_eq_false (Bool.eq_false_iff.2 h)
      rw [hsign] at hlt ⊢
      omega
  rw [ofMagnitude, heq]
  cases x
  rename_i bits
  exact congrArg _ UInt64.ofNat_toNat

/-- A number that is neither infinite nor undefined. -/
def Finite (x : Numbar) : Prop :=
  x.magnitude < infinityBits

theorem Finite.isNaN {x : Numbar} (h : x.Finite) : x.isNaN = false :=
  decide_eq_false (Nat.not_lt.2 (Nat.le_of_lt h))

section

variable {x y z : Numbar}

theorem equal_iff : x.equal y = true ↔ (x.isNaN = false ∧ y.isNaN = false) ∧ x.order = y.order := by
  simp [equal]

theorem equal_symm (h : x.equal y = true) : y.equal x = true := by
  rw [equal_iff] at h ⊢
  exact ⟨h.1.symm, h.2.symm⟩

theorem equal_comm (x y : Numbar) : x.equal y = y.equal x :=
  Bool.eq_iff_iff.2 ⟨equal_symm, equal_symm⟩

theorem equal_trans (hxy : x.equal y = true) (hyz : y.equal z = true) : x.equal z = true := by
  rw [equal_iff] at hxy hyz ⊢
  exact ⟨⟨hxy.1.1, hyz.1.2⟩, hxy.2.trans hyz.2⟩

theorem equal_self (h : x.isNaN = false) : x.equal x = true :=
  equal_iff.2 ⟨⟨h, h⟩, rfl⟩

end

theorem nearestMagnitude_le (num den : Nat) : nearestMagnitude num den ≤ infinityBits :=
  Nat.min_le_right _ _

private theorem magnitude_nearest_le (negative : Bool) (num den : Nat) :
    (nearest negative num den).magnitude ≤ infinityBits := by
  have hle : (if num = 0 then 0 else nearestMagnitude num den) ≤ infinityBits := by
    split
    · exact Nat.zero_le _
    · exact nearestMagnitude_le num den
  rw [nearest, magnitude_ofMagnitude (Nat.lt_of_le_of_lt hle (by decide))]
  exact hle

private theorem finite_of_assemble? {value radix : Nat} {e : Int} {x : Numbar}
    (h : assemble? negative value radix e = some x) : x.Finite := by
  dsimp only [assemble?] at h
  split at h
  · cases h
  · rename_i hinf
    cases h
    refine Nat.lt_of_le_of_ne (magnitude_nearest_le _ _ _) fun heq => hinf ?_
    exact beq_iff_eq.2 heq

/-- A number that a text spells is finite. -/
theorem finite_of_read? {t : Text} {x : Numbar} (h : read? t = some x) : x.Finite := by
  have hdecimal {negative : Bool} {body : Text} (h : read?.decimal negative body = some x) :
      x.Finite := by
    dsimp only [read?.decimal] at h
    repeat' split at h
    all_goals first
      | exact finite_of_assemble? h
      | cases h
  have hhexadecimal {negative : Bool} {body : Text}
      (h : read?.hexadecimal negative body = some x) : x.Finite := by
    dsimp only [read?.hexadecimal] at h
    repeat' split at h
    all_goals first
      | exact finite_of_assemble? h
      | cases h
  dsimp only [read?] at h
  split at h
  · split at h
    · exact hhexadecimal h
    · exact hdecimal h
  · exact hdecimal h

end LolToolchain.Numbar
