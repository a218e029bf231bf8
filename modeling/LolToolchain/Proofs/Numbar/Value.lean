import LolToolchain.Proofs.Numbar.Exact
import Mathlib.Algebra.Order.Field.Rat
import Mathlib.Data.Int.Cast.Lemmas
import Mathlib.Algebra.Order.Ring.Cast
import Mathlib.Tactic.Linarith

/-!
The exact value of a floating-point number. Finite numbers are equal when their values are the same,
and the number nearest to a whole number is that number when some floating-point number has its value.
-/
namespace LolToolchain.Numbar

variable {x y : Numbar} {q m : Nat} {u e : Int} {n : Int}

/-- `m · 2 ^ e`. -/
def scaled (m : Nat) (e : Int) : ℚ :=
  (m * scaleUp e : Nat) / (scaleDown e : Nat)

/-- The number that a finite pattern stands for. -/
def value (x : Numbar) : ℚ :=
  if x.isNegative then -scaled x.significand x.exponent else scaled x.significand x.exponent

private theorem scaleDown_ne_zero (e : Int) : ((scaleDown e : Nat) : ℚ) ≠ 0 :=
  Nat.cast_ne_zero.2 (Nat.ne_of_gt (Nat.two_pow_pos _))

theorem scaled_eq_iff : scaled q u = scaled m e ↔ SameScaled q u m e := by
  rw [scaled, scaled, div_eq_div_iff (scaleDown_ne_zero u) (scaleDown_ne_zero e), ← Nat.cast_mul,
    ← Nat.cast_mul, Nat.cast_inj]
  rfl

theorem scaled_zero (e : Int) : scaled 0 e = 0 := by
  rw [scaled, Nat.zero_mul, Nat.cast_zero, zero_div]

theorem scaled_eq_zero_iff : scaled m e = 0 ↔ m = 0 := by
  rw [← scaled_zero e, scaled_eq_iff, SameScaled, Nat.zero_mul, Nat.zero_mul]
  constructor
  · intro h
    have hup : 0 < scaleUp e := Nat.two_pow_pos _
    have hdown : 0 < scaleDown e := Nat.two_pow_pos _
    by_contra hne
    have hpos := Nat.mul_pos (Nat.mul_pos (Nat.pos_of_ne_zero hne) hup) hdown
    omega
  · rintro rfl
    rw [Nat.zero_mul, Nat.zero_mul]

theorem scaled_nonneg (m : Nat) (e : Int) : 0 ≤ scaled m e :=
  div_nonneg (Nat.cast_nonneg _) (Nat.cast_nonneg _)

theorem scaled_natAbs (n : Int) : scaled n.natAbs 0 = (n.natAbs : ℚ) := by
  rw [scaled]
  change ((n.natAbs * 1 : Nat) : ℚ) / ((1 : Nat) : ℚ) = n.natAbs
  rw [Nat.mul_one, Nat.cast_one, div_one]

theorem significand_eq_zero_iff : x.significand = 0 ↔ x.magnitude = 0 := by
  have hpos : 0 < hiddenBit := by decide
  rw [significand]
  split
  · rename_i hlt
    rw [Nat.mod_eq_of_lt hlt]
  · omega

/-- Finite patterns without sign stand for different numbers. -/
theorem scaled_eq_iff_magnitude (hx : x.Finite) (hy : y.Finite) :
    scaled x.significand x.exponent = scaled y.significand y.exponent ↔
      x.magnitude = y.magnitude := by
  constructor
  · intro h
    by_cases hzero : x.significand = 0
    · rw [hzero, scaled_zero, eq_comm, scaled_eq_zero_iff] at h
      rw [significand_eq_zero_iff.1 hzero, significand_eq_zero_iff.1 h]
    · have hne : y.significand ≠ 0 := by
        intro hy0
        rw [hy0, scaled_zero, scaled_eq_zero_iff] at h
        exact hzero h
      calc x.magnitude
          = nearestMagnitude (x.significand * scaleUp x.exponent) (scaleDown x.exponent) :=
            (nearestMagnitude_exact hx hzero rfl).symm
        _ = y.magnitude := nearestMagnitude_exact hy hne (scaled_eq_iff.1 h)
  · intro h
    rw [significand, exponent, h, ← significand, ← exponent]

/-- Finite numbers are ordered alike when they have the same value. -/
private theorem order_eq_iff (hx : x.Finite) (hy : y.Finite) : x.order = y.order ↔ x.value = y.value := by
  have hmag := scaled_eq_iff_magnitude hx hy
  -- Of two numbers with different signs that are equal, both are zero.
  have hzero (z : Numbar) : scaled z.significand z.exponent = 0 ↔ z.magnitude = 0 := by
    rw [scaled_eq_zero_iff, significand_eq_zero_iff]
  have hopposite (z w : Numbar) :
      -(z.magnitude : Int) = w.magnitude ↔
        -scaled z.significand z.exponent = scaled w.significand w.exponent := by
    have hz := scaled_nonneg z.significand z.exponent
    have hw := scaled_nonneg w.significand w.exponent
    constructor
    · intro h
      rw [(hzero z).2 (by omega), (hzero w).2 (by omega), neg_zero]
    · intro h
      have hz0 : z.magnitude = 0 := (hzero z).1 (le_antisymm (by linarith) hz)
      have hw0 : w.magnitude = 0 := (hzero w).1 (le_antisymm (by linarith) hw)
      rw [hz0, hw0]
      rfl
  rw [order, order, value, value]
  cases x.isNegative with
  | false =>
    cases y.isNegative with
    | false => exact Nat.cast_inj.trans hmag.symm
    | true => exact eq_comm.trans ((hopposite y x).trans eq_comm)
  | true =>
    cases y.isNegative with
    | false => exact hopposite x y
    | true => exact neg_inj.trans (Nat.cast_inj.trans (hmag.symm.trans neg_inj.symm))

theorem equal_iff_value (hx : x.Finite) (hy : y.Finite) : x.equal y = true ↔ x.value = y.value := by
  rw [equal, hx.isNaN, hy.isNaN]
  simp only [Bool.not_false, Bool.true_and, beq_iff_eq]
  exact order_eq_iff hx hy

theorem ofInt_eq (n : Int) :
    ofInt n = ofMagnitude (n < 0) (if n.natAbs = 0 then 0 else nearestMagnitude n.natAbs 1) :=
  rfl

private theorem natAbs_eq_scaled (h : x.value = n) : scaled x.significand x.exponent = scaled n.natAbs 0 := by
  rw [scaled_natAbs, Nat.cast_natAbs, Int.cast_abs, ← h, value]
  split
  · rw [abs_neg, abs_of_nonneg (scaled_nonneg _ _)]
  · rw [abs_of_nonneg (scaled_nonneg _ _)]

theorem ite_neg_natAbs (n : Int) :
    (if decide (n < 0) = true then -(n.natAbs : ℚ) else n.natAbs) = n := by
  by_cases hneg : n < 0
  · have habs : ((n.natAbs : Int) : ℚ) = (-n : Int) := congrArg _ (by omega)
    rw [decide_eq_true hneg, if_pos rfl, ← Int.cast_natCast, habs, Int.cast_neg, neg_neg]
  · have habs : ((n.natAbs : Int) : ℚ) = (n : Int) := congrArg _ (by omega)
    rw [decide_eq_false hneg, if_neg Bool.false_ne_true, ← Int.cast_natCast, habs]

/-- A whole number that some floating-point number has as its value is not rounded. -/
theorem value_ofInt (hx : x.Finite) (h : x.value = n) : (ofInt n).Finite ∧ (ofInt n).value = n := by
  have hscaled := natAbs_eq_scaled h
  have hmag : (ofInt n).magnitude = x.magnitude := by
    rw [ofInt_eq, magnitude_ofMagnitude]
    · split
      · rename_i hzero
        rw [hzero, scaled_zero, scaled_eq_zero_iff, significand_eq_zero_iff] at hscaled
        exact hscaled.symm
      · rename_i hne
        have hx0 : x.significand ≠ 0 := by
          intro hx0
          rw [hx0, scaled_zero, eq_comm, scaled_eq_zero_iff] at hscaled
          exact hne hscaled
        have hnear := nearestMagnitude_exact hx hx0 (scaled_eq_iff.1 hscaled.symm)
        rwa [show n.natAbs * scaleUp 0 = n.natAbs from Nat.mul_one _] at hnear
    · split
      · decide
      · exact Nat.lt_of_le_of_lt (nearestMagnitude_le _ _) (by decide)
  have hfinite : (ofInt n).Finite := by rwa [Finite, hmag]
  refine ⟨hfinite, ?_⟩
  have hsign : (ofInt n).isNegative = decide (n < 0) := by
    rw [ofInt_eq, isNegative_ofMagnitude]
    split
    · decide
    · exact Nat.lt_of_le_of_lt (nearestMagnitude_le _ _) (by decide)
  rw [value, hsign, (scaled_eq_iff_magnitude hfinite hx).2 hmag, hscaled, scaled_natAbs]
  exact ite_neg_natAbs n

/-- Every significand that has the hidden bit occurs with every exponent. -/
private theorem exists_of_scaled (negative : Bool) (hlow : hiddenBit ≤ q) (hhigh : q < 2 * hiddenBit)
    (he : -1074 ≤ e) (he' : e ≤ 971) :
    ∃ x : Numbar, x.Finite ∧ x.isNegative = negative ∧ x.significand = q ∧ x.exponent = e := by
  obtain ⟨k, hk⟩ : ∃ k : Nat, e = (k : Int) - 1074 := ⟨(e + 1074).toNat, by omega⟩
  have hbit : hiddenBit = 0x10000000000000 := rfl
  have hinfinity : infinityBits = 0x7FF0000000000000 := rfl
  have hsign : signBit = 0x8000000000000000 := rfl
  have hmul : k * hiddenBit = k * 0x10000000000000 := rfl
  have hlt : k * hiddenBit + q < infinityBits := by omega
  have hmag : (ofMagnitude negative (k * hiddenBit + q)).magnitude = k * hiddenBit + q :=
    magnitude_ofMagnitude (by omega)
  have hdiv : (k * hiddenBit + q) / hiddenBit = k + 1 := by
    rw [hbit] at hlow hhigh ⊢
    omega
  refine ⟨ofMagnitude negative (k * hiddenBit + q), ?_, ?_, ?_, ?_⟩
  · rwa [Finite, hmag]
  · exact isNegative_ofMagnitude (by omega)
  · rw [significand, hmag, if_neg (by omega)]
    rw [hbit] at hlow hhigh ⊢
    omega
  · rw [exponent, hmag, hdiv]
    omega

/-- Whole numbers of up to 53 bits are values of floating-point numbers. -/
theorem exists_value_eq (h : n.natAbs ≤ 0x20000000000000) : ∃ x : Numbar, x.Finite ∧ x.value = n := by
  by_cases hzero : n = 0
  · refine ⟨zero, show (0 : Nat) < infinityBits by decide, ?_⟩
    rw [hzero, value, if_neg (by decide), significand_eq_zero_iff.2 rfl, scaled_zero, Int.cast_zero]
  · have hne : n.natAbs ≠ 0 := Int.natAbs_ne_zero.2 hzero
    obtain ⟨q, e, hlow, hhigh, he, he', hsame⟩ : ∃ q e, hiddenBit ≤ q ∧ q < 2 * hiddenBit ∧
        -1074 ≤ e ∧ e ≤ 971 ∧ SameScaled q e n.natAbs 0 := by
      by_cases htop : n.natAbs = 0x20000000000000
      · refine ⟨hiddenBit, 1, by decide, by decide, by decide, by decide, ?_⟩
        rw [htop]
        rfl
      · have hlog : n.natAbs.log2 ≤ 52 := Nat.le_of_lt_succ ((Nat.log2_lt hne).2 (by omega))
        have hfactor : (2 : Nat) ^ n.natAbs.log2 * 2 ^ (52 - n.natAbs.log2) = hiddenBit := by
          rw [← Nat.pow_add, Nat.add_sub_cancel' hlog]
          rfl
        have hpos : 0 < (2 : Nat) ^ (52 - n.natAbs.log2) := Nat.two_pow_pos _
        refine ⟨n.natAbs * 2 ^ (52 - n.natAbs.log2), n.natAbs.log2 - 52, ?_, ?_, by omega, by omega, ?_⟩
        · rw [← hfactor]
          exact Nat.mul_le_mul_right _ (Nat.log2_self_le hne)
        · have hlt := Nat.mul_lt_mul_of_pos_right (Nat.lt_log2_self (n := n.natAbs)) hpos
          rw [Nat.pow_succ, Nat.mul_right_comm, hfactor] at hlt
          omega
        · have hup : ((n.natAbs.log2 : Int) - 52).toNat = 0 := by omega
          have hdown : (-((n.natAbs.log2 : Int) - 52)).toNat = 52 - n.natAbs.log2 := by omega
          change n.natAbs * 2 ^ (52 - n.natAbs.log2) * 2 ^ ((n.natAbs.log2 : Int) - 52).toNat * 1 =
            n.natAbs * 1 * 2 ^ (-((n.natAbs.log2 : Int) - 52)).toNat
          rw [hup, hdown, Nat.pow_zero, Nat.mul_one, Nat.mul_one, Nat.mul_one]
    obtain ⟨x, hx, hsign, hsig, hexp⟩ := exists_of_scaled (decide (n < 0)) hlow hhigh he he'
    refine ⟨x, hx, ?_⟩
    rw [value, hsign, hsig, hexp, scaled_eq_iff.2 hsame, scaled_natAbs]
    exact ite_neg_natAbs n

/-- No whole number of 64 bits is rounded to infinity. -/
theorem finite_ofInt (h : n.natAbs < 0x10000000000000000) : (ofInt n).Finite := by
  have hbit : hiddenBit = 0x10000000000000 := rfl
  have hinfinity : infinityBits = 0x7FF0000000000000 := rfl
  have hsign : signBit = 0x8000000000000000 := rfl
  by_cases hne : n.natAbs = 0
  · rw [Finite, ofInt_eq, if_pos hne, magnitude_ofMagnitude (by decide)]
    decide
  · have hlog : n.natAbs.log2 ≤ 63 := Nat.le_of_lt_succ ((Nat.log2_lt hne).2 h)
    have hfloor : floorLog n.natAbs 1 = n.natAbs.log2 := by
      have hscaled := floorLog_scaled (u := 0) hne
      rw [Int.add_zero] at hscaled
      rw [← hscaled]
      exact congrArg₂ floorLog (Nat.mul_one _).symm rfl
    have hexp : max (-1074) ((n.natAbs.log2 : Int) - 52) = n.natAbs.log2 - 52 := by omega
    obtain ⟨e, he⟩ : ∃ e : Int, e = n.natAbs.log2 - 52 := ⟨_, rfl⟩
    have hquotient : n.natAbs * scaleDown e / (1 * scaleUp e) < 2 * hiddenBit := by
      refine Nat.div_lt_of_lt_mul ?_
      change n.natAbs * 2 ^ (-e).toNat < 1 * 2 ^ e.toNat * 2 ^ 53
      rw [Nat.one_mul, ← Nat.pow_add]
      calc n.natAbs * 2 ^ (-e).toNat
          < 2 ^ (n.natAbs.log2 + 1) * 2 ^ (-e).toNat :=
            Nat.mul_lt_mul_of_pos_right Nat.lt_log2_self (Nat.two_pow_pos _)
        _ = 2 ^ (e.toNat + 53) := by
          rw [← Nat.pow_add]
          congr 1
          omega
    have hround : roundDiv (n.natAbs * scaleDown e) (1 * scaleUp e) ≤ 2 * hiddenBit := by
      dsimp only [roundDiv]
      split <;> omega
    have hlt : nearestMagnitude n.natAbs 1 < infinityBits := by
      refine Nat.lt_of_le_of_lt (Nat.min_le_left _ _) ?_
      rw [hfloor, hexp, ← he]
      have hmul : (e + 1074).toNat * hiddenBit = (e + 1074).toNat * 0x10000000000000 := rfl
      omega
    rwa [Finite, ofInt_eq, if_neg hne, magnitude_ofMagnitude (by omega)]

end LolToolchain.Numbar
