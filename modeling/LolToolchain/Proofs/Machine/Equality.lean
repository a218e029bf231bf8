import LolToolchain.Bytecode.Value
import LolToolchain.Proofs.Numbar.Value

/-!
Equality of values. Numbers of the two kinds are compared after the `NUMBR` is rounded to the nearest
`NUMBAR`, so that equality follows the exact values of those `NUMBR`s that some `NUMBAR` has as its
value, and of no other.
-/
namespace LolToolchain

namespace Value

variable {u v w : Value} {n : Int64} {x : Numbar}

/-- A value that a program can compare, other than NaN. -/
def Comparable : Value → Prop
  | .numbar x => x.isNaN = false
  | .interp _ | .unknown _ => False
  | _ => True

/-- A `NUMBR` that is the exact value of some `NUMBAR`. -/
def Exact (n : Int64) : Prop :=
  ∃ x : Numbar, x.Finite ∧ x.value = n.toInt

theorem equal_self (h : v.Comparable) : v.equal v = true := by
  cases v with
  | numbar x => exact Numbar.equal_self h
  | interp t => cases h
  | unknown k => cases h
  | noob => rfl
  | _ => exact beq_self_eq_true _

theorem equal_symm (v w : Value) : v.equal w = w.equal v := by
  cases v <;> cases w <;>
    first
    | rfl
    | exact Numbar.equal_comm _ _
    | exact BEq.comm

/-- Other values than numbers are only equal to themselves. -/
theorem eq_of_equal (hv : v.isNumeric = false) (h : v.equal w = true) : v = w := by
  cases v <;> cases w <;>
    first
    | rfl
    | exact absurd hv.symm Bool.false_ne_true
    | exact absurd h Bool.false_ne_true
    | exact congrArg _ (eq_of_beq h)

theorem isNumeric_of_equal (hv : v.isNumeric = true) (h : v.equal w = true) : w.isNumeric = true := by
  cases v <;> cases w <;>
    first
    | rfl
    | exact absurd hv Bool.false_ne_true
    | exact absurd h Bool.false_ne_true

theorem natAbs_lt (n : Int64) : n.toInt.natAbs < 0x10000000000000000 := by
  have hlow := n.le_toInt
  have hhigh := n.toInt_lt
  omega

theorem exact_iff : Exact n ↔ (Numbar.ofInt n.toInt).value = n.toInt := by
  constructor
  · rintro ⟨x, hx, hvalue⟩
    exact (Numbar.value_ofInt hx hvalue).2
  · exact fun h => ⟨_, Numbar.finite_ofInt (natAbs_lt n), h⟩

/-- A `NUMBR` equals the finite `NUMBAR`s that have the value of its rounding. -/
private theorem equal_numbar_iff (hx : x.Finite) :
    equal (.numbr n) (.numbar x) = true ↔ x.value = (Numbar.ofInt n.toInt).value := by
  change (Numbar.ofInt n.toInt).equal x = true ↔ _
  rw [Numbar.equal_iff_value (Numbar.finite_ofInt (natAbs_lt n)) hx, eq_comm]

/-- Equality goes by exact values for those `NUMBR`s that are not rounded, and for no other. -/
private theorem exact_iff_equal : Exact n ↔
    ∀ x : Numbar, x.Finite → (equal (.numbr n) (.numbar x) = true ↔ x.value = n.toInt) := by
  constructor
  · intro h x hx
    rw [equal_numbar_iff hx, exact_iff.1 h]
  · intro h
    have hfinite := Numbar.finite_ofInt (natAbs_lt n)
    exact exact_iff.2 ((h _ hfinite).1 ((equal_numbar_iff hfinite).2 rfl))

private theorem eq_of_equal_of_exact {a c : Int64} (ha : Exact a) (hc : Exact c)
    (h : equal (.numbr a) (.numbar x) = true) (h' : equal (.numbar x) (.numbr c) = true) : a = c := by
  have hround : (Numbar.ofInt a.toInt).value = (Numbar.ofInt c.toInt).value :=
    (Numbar.equal_iff_value (Numbar.finite_ofInt (natAbs_lt a))
      (Numbar.finite_ofInt (natAbs_lt c))).1 (Numbar.equal_trans h h')
  rw [exact_iff.1 ha, exact_iff.1 hc, Int.cast_inj] at hround
  exact Int64.toInt_inj.1 hround

/-- Equal values can stand for each other, but for two `NUMBR`s that are rounded to the `NUMBAR`
between them. -/
private theorem equal_trans (h : u.equal v = true) (h' : v.equal w = true)
    (hexact : ∀ a x c, u = .numbr a → v = .numbar x → w = .numbr c → Exact a ∧ Exact c) :
    u.equal w = true := by
  by_cases hu : u.isNumeric = true
  · have hv := isNumeric_of_equal hu h
    have hw := isNumeric_of_equal hv h'
    cases v with
    | numbr b =>
      cases u with
      | numbr a => rwa [eq_of_beq h]
      | numbar y =>
        cases w with
        | numbr c => rwa [← eq_of_beq h']
        | numbar z => exact Numbar.equal_trans h h'
        | _ => cases hw
      | _ => cases hu
    | numbar x =>
      cases u with
      | numbr a =>
        cases w with
        | numbr c =>
          obtain ⟨ha, hc⟩ := hexact a x c rfl rfl rfl
          rw [eq_of_equal_of_exact ha hc h h']
          exact equal_self trivial
        | numbar z => exact Numbar.equal_trans h h'
        | _ => cases hw
      | numbar y =>
        cases w with
        | numbr c => exact Numbar.equal_trans h h'
        | numbar z => exact Numbar.equal_trans h h'
        | _ => cases hw
      | _ => cases hu
    | _ => cases hv
  · rwa [eq_of_equal (Bool.eq_false_iff.2 hu) h]

/-- On comparable values equality is reflexive and symmetric. It is transitive, but for `NUMBR`s that
are rounded to a `NUMBAR` between them; and a `NUMBR` equals just the finite `NUMBAR`s with its exact
value if and only if it is such a value itself, as all the whole numbers of up to 53 bits are. -/
theorem equal_follows_value (u v w : Value) (n : Int64) :
    (v.Comparable → v.equal v = true) ∧ v.equal w = w.equal v ∧
    (u.equal v = true → v.equal w = true →
      (∀ a x c, u = .numbr a → v = .numbar x → w = .numbr c → Exact a ∧ Exact c) →
      u.equal w = true) ∧
    (Exact n ↔ ∀ x : Numbar, x.Finite → (equal (.numbr n) (.numbar x) = true ↔ x.value = n.toInt)) ∧
    (n.toInt.natAbs ≤ 0x20000000000000 → Exact n) :=
  ⟨equal_self, equal_symm v w, equal_trans, exact_iff_equal, Numbar.exists_value_eq⟩

/-- The `NUMBAR` 2 ^ 53. -/
def firstGap : Numbar := ⟨0x4340000000000000⟩

private theorem value_firstGap : firstGap.value = 9007199254740992 := by
  have hsig : firstGap.significand = 0x10000000000000 := by decide
  have hexp : firstGap.exponent = 1 := by decide
  rw [Numbar.value, if_neg (by decide), hsig, hexp, Numbar.scaled,
    show Numbar.scaleUp 1 = 2 from rfl, show Numbar.scaleDown 1 = 1 from rfl]
  norm_num

/-- The laws at 2 ^ 53, the last `NUMBR` before the first one that is rounded. -/
theorem equal_follows_value_firstGap :
    Comparable (.numbar firstGap) ∧ equal (.numbar firstGap) (.numbar firstGap) = true ∧
    equal (.numbr 9007199254740992) (.numbar firstGap) = true ∧
    equal (.numbar firstGap) (.numbar firstGap) = true ∧
    equal (.numbr 9007199254740992) (.numbar firstGap) = true ∧
    Exact 9007199254740992 ∧ firstGap.Finite ∧
    (equal (.numbr 9007199254740992) (.numbar firstGap) = true ↔
      firstGap.value = (9007199254740992 : Int64).toInt) := by
  obtain ⟨hself, -, htrans, hexact, hsmall⟩ := equal_follows_value (.numbr 9007199254740992)
    (.numbar firstGap) (.numbar firstGap) 9007199254740992
  have hcomparable : Comparable (.numbar firstGap) := by
    change firstGap.isNaN = false
    decide
  have hequal : equal (.numbr 9007199254740992) (.numbar firstGap) = true := by decide
  have hfinite : firstGap.Finite := show firstGap.magnitude < Numbar.infinityBits by decide
  have hsame := hself hcomparable
  have hrepresented : Exact 9007199254740992 := hsmall (by decide)
  refine ⟨hcomparable, hsame, hequal, hsame, htrans hequal hsame nofun, hrepresented, hfinite,
    hexact.1 hrepresented _ hfinite⟩

/-- 2 ^ 53 + 1 equals the `NUMBAR` 2 ^ 53, whose value is another one, and with it two different
`NUMBR`s equal the same `NUMBAR`. -/
theorem rounded_equals_neighbour :
    equal (.numbr 9007199254740993) (.numbar firstGap) = true ∧ firstGap.Finite ∧
      firstGap.value ≠ (9007199254740993 : Int64).toInt ∧
      equal (.numbar firstGap) (.numbr 9007199254740992) = true ∧
      equal (.numbr 9007199254740993) (.numbr 9007199254740992) = false := by
  refine ⟨by decide, show firstGap.magnitude < Numbar.infinityBits by decide +kernel, ?_,
    by decide, by decide +kernel⟩
  rw [value_firstGap, show (9007199254740993 : Int64).toInt = 9007199254740993 from rfl]
  norm_num

end Value
end LolToolchain
