import LolToolchain.Proofs.Numbar.Basic
import Mathlib.Algebra.Group.Nat.Defs

/-!
Rounding is exact where it can be: the number nearest to a product of a whole number and a power of
two is that product, if there is a floating-point number with its value.
-/
namespace LolToolchain.Numbar

/-- `q · 2 ^ u` and `m · 2 ^ e` are the same number. -/
def SameScaled (q : Nat) (u : Int) (m : Nat) (e : Int) : Prop :=
  q * scaleUp u * scaleDown e = m * scaleUp e * scaleDown u

variable {q m : Nat} {u e : Int}

theorem log2_mul_two_pow (h : m ≠ 0) (k : Nat) : (m * 2 ^ k).log2 = m.log2 + k := by
  have hpos : 0 < 2 ^ k := Nat.two_pow_pos k
  have hne : m * 2 ^ k ≠ 0 := Nat.mul_ne_zero h (Nat.ne_of_gt hpos)
  rw [Nat.log2_eq_iff hne, Nat.pow_add, Nat.add_right_comm, Nat.pow_add]
  exact ⟨Nat.mul_le_mul_right _ (Nat.log2_self_le h),
    Nat.mul_lt_mul_of_pos_right Nat.lt_log2_self hpos⟩

theorem SameScaled.ne_zero (h : SameScaled q u m e) (hm : m ≠ 0) : q ≠ 0 := by
  rintro rfl
  rw [SameScaled, Nat.zero_mul, Nat.zero_mul] at h
  have hpos : 0 < m * scaleUp e * scaleDown u :=
    Nat.mul_pos (Nat.mul_pos (Nat.pos_of_ne_zero hm) (Nat.two_pow_pos _)) (Nat.two_pow_pos _)
  omega

/-- Equal numbers lie between the same powers of two. -/
theorem SameScaled.log2_add (h : SameScaled q u m e) (hm : m ≠ 0) :
    (q.log2 : Int) + u = m.log2 + e := by
  have hq := h.ne_zero hm
  have hlog := congrArg Nat.log2 h
  change (q * 2 ^ u.toNat * 2 ^ (-e).toNat).log2 = (m * 2 ^ e.toNat * 2 ^ (-u).toNat).log2 at hlog
  rw [Nat.mul_assoc, Nat.mul_assoc, ← Nat.pow_add, ← Nat.pow_add, log2_mul_two_pow hq,
    log2_mul_two_pow hm] at hlog
  omega

/-- The power of two below a scaled number. -/
theorem floorLog_scaled (hq : q ≠ 0) :
    floorLog (q * scaleUp u) (scaleDown u) = (q.log2 : Int) + u := by
  have hnum : (q * scaleUp u).log2 = q.log2 + u.toNat := log2_mul_two_pow hq _
  have hden : (scaleDown u).log2 = (-u).toNat := Nat.log2_two_pow
  have hk : ((q * scaleUp u).log2 : Int) - (scaleDown u).log2 = (q.log2 : Int) + u := by omega
  have hle : scaleDown u * scaleUp ((q.log2 : Int) + u) ≤
      q * scaleUp u * scaleDown ((q.log2 : Int) + u) := by
    change 2 ^ (-u).toNat * 2 ^ ((q.log2 : Int) + u).toNat ≤
      q * 2 ^ u.toNat * 2 ^ (-((q.log2 : Int) + u)).toNat
    calc 2 ^ (-u).toNat * 2 ^ ((q.log2 : Int) + u).toNat
        = 2 ^ q.log2 * 2 ^ (u.toNat + (-((q.log2 : Int) + u)).toNat) := by
          rw [← Nat.pow_add, ← Nat.pow_add]
          congr 1
          omega
      _ ≤ q * 2 ^ (u.toNat + (-((q.log2 : Int) + u)).toNat) :=
          Nat.mul_le_mul_right _ (Nat.log2_self_le hq)
      _ = q * 2 ^ u.toNat * 2 ^ (-((q.log2 : Int) + u)).toNat := by
          rw [Nat.pow_add, Nat.mul_assoc]
  rw [floorLog, hk]
  exact if_pos hle

private theorem roundDiv_mul {d : Nat} (hd : 0 < d) : roundDiv (m * d) d = m := by
  rw [roundDiv, Nat.mul_div_cancel _ hd, Nat.mul_mod_left, if_neg]
  simp only [Bool.or_eq_true, Bool.and_eq_true, decide_eq_true_eq, beq_iff_eq]
  omega

variable {x : Numbar}

private theorem significand_lt (x : Numbar) : x.significand < 2 * hiddenBit := by
  have hmod : x.magnitude % hiddenBit < hiddenBit := Nat.mod_lt _ (by decide)
  rw [significand]
  split <;> omega

/-- The pattern of a number from its significand and its exponent. -/
theorem magnitude_eq (x : Numbar) :
    (x.exponent + 1074).toNat * hiddenBit + x.significand = x.magnitude := by
  have hdiv := Nat.div_add_mod x.magnitude hiddenBit
  have hmod : x.magnitude % hiddenBit < hiddenBit := Nat.mod_lt _ (by decide)
  dsimp only [exponent, significand]
  split
  · rename_i hlt
    have hzero : x.magnitude / hiddenBit = 0 := Nat.div_eq_of_lt hlt
    rw [hzero, Nat.mod_eq_of_lt hlt]
    simp
  · rename_i hge
    have hpos : 1 ≤ x.magnitude / hiddenBit :=
      (Nat.one_le_div_iff (by decide)).2 (Nat.not_lt.1 hge)
    obtain ⟨k, hk⟩ : ∃ k, x.magnitude / hiddenBit = k + 1 := ⟨_, (Nat.sub_add_cancel hpos).symm⟩
    rw [hk] at hdiv
    have hmax : max 1 (x.magnitude / hiddenBit) = k + 1 := by omega
    have hexp : ((max 1 (x.magnitude / hiddenBit) : Nat) - 1075 + 1074 : Int).toNat = k := by
      rw [hmax]
      omega
    rw [hexp]
    rw [Nat.mul_add, Nat.mul_one, Nat.mul_comm] at hdiv
    omega

private theorem exponent_ge (x : Numbar) : -1074 ≤ x.exponent := by
  rw [exponent]
  omega

/-- A significand without the hidden bit only goes with the least exponent. -/
theorem exponent_of_significand_lt (h : x.significand < hiddenBit) : x.exponent = -1074 := by
  have hlt : x.magnitude < hiddenBit := by
    rw [significand] at h
    split at h
    · assumption
    · omega
  rw [exponent, Nat.div_eq_of_lt hlt]
  rfl

/-- The number nearest to the value of a number is that number. -/
theorem nearestMagnitude_exact (hfinite : x.Finite) (hx : x.significand ≠ 0)
    (h : SameScaled q u x.significand x.exponent) :
    nearestMagnitude (q * scaleUp u) (scaleDown u) = x.magnitude := by
  have hlog := h.log2_add hx
  have hfloor : floorLog (q * scaleUp u) (scaleDown u) = x.significand.log2 + x.exponent := by
    rw [floorLog_scaled (h.ne_zero hx), hlog]
  have hle : -1074 ≤ x.exponent := x.exponent_ge
  have hexp : max (-1074) ((x.significand.log2 : Int) + x.exponent - 52) = x.exponent := by
    by_cases hhidden : x.significand < hiddenBit
    · have hlt : x.significand.log2 < 52 := (Nat.log2_lt hx).2 hhidden
      rw [exponent_of_significand_lt hhidden]
      omega
    · have hlog52 : x.significand.log2 = 52 := by
        rw [Nat.log2_eq_iff hx]
        exact ⟨Nat.not_lt.1 hhidden, x.significand_lt⟩
      omega
  have hround : roundDiv (q * scaleUp u * scaleDown x.exponent)
      (scaleDown u * scaleUp x.exponent) = x.significand := by
    rw [h, Nat.mul_assoc, Nat.mul_comm (scaleUp x.exponent)]
    exact roundDiv_mul (Nat.mul_pos (Nat.two_pow_pos _) (Nat.two_pow_pos _))
  dsimp only [nearestMagnitude]
  rw [hfloor, hexp, hround, magnitude_eq]
  exact Nat.min_eq_left (Nat.le_of_lt hfinite)

theorem ofScaled_exact (negative : Bool) (hfinite : x.Finite) (hx : x.significand ≠ 0)
    (h : SameScaled q u x.significand x.exponent) :
    ofScaled negative q u = ofMagnitude negative x.magnitude := by
  have hne : q * scaleUp u ≠ 0 :=
    Nat.mul_ne_zero (h.ne_zero hx) (Nat.ne_of_gt (Nat.two_pow_pos _))
  rw [ofScaled, nearest, if_neg hne, nearestMagnitude_exact hfinite hx h]

theorem ofScaled_zero (negative : Bool) (u : Int) : ofScaled negative 0 u = ofMagnitude negative 0 := by
  rw [ofScaled, Nat.zero_mul, nearest, if_pos rfl]

end LolToolchain.Numbar
