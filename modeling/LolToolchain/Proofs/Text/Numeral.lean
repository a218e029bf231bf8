import LolToolchain.Numbar.Reading
import LolToolchain.Proofs.Text.Utf8
import LolToolchain.Text.Blank

/-!
Whole numbers in decimal: what is written is read back, to the last number of the range on either
side, and no two numbers are written alike.
-/
namespace LolToolchain

variable {c : Char} {cs : List Char} {n : Nat}

theorem toNat_digit (h : c.isDigit = true) : 48 ≤ c.toNat ∧ c.toNat ≤ 57 :=
  Char.isDigit_iff_toNat.1 h

theorem Text.encodeChar_digit (h : c.isDigit = true) : encodeChar c = [c.toNat.toUInt8] := by
  have hle : c.toNat ≤ 57 := (toNat_digit h).2
  rw [encodeChar, if_pos (by omega)]

theorem Text.isBlank_digit (h : c.isDigit = true) : isBlank c = false := by
  obtain ⟨hlow, hhigh⟩ := toNat_digit h
  simp only [isBlank, Bool.or_eq_false_iff, Bool.and_eq_false_iff, decide_eq_false_iff_not,
    beq_eq_false_iff_ne]
  omega

theorem digitOf?_digit (h : c.isDigit = true) :
    digitOf? 10 c.toNat.toUInt8 = some (c.toNat - 48) := by
  obtain ⟨hlow, hhigh⟩ := toNat_digit h
  have hbyte : c.toNat.toUInt8.toNat = c.toNat := Glyph.toNat_toUInt8 (by omega)
  rw [digitOf?, hbyte, if_pos (by simp; omega)]
  simp only [Option.filter_some]
  rw [if_pos (by simp; omega)]

private theorem mapM_digitOf? (h : ∀ c ∈ cs, c.isDigit = true) :
    (Text.ofChars cs).mapM (digitOf? 10) = some (cs.map fun c => c.toNat - 48) := by
  induction cs with
  | nil => rfl
  | cons c cs ih =>
    obtain ⟨hc, hcs⟩ := List.forall_mem_cons.1 h
    rw [Text.ofChars, List.flatMap_cons, Text.encodeChar_digit hc, List.singleton_append, List.mapM_cons,
      digitOf?_digit hc, ← Text.ofChars, ih hcs]
    rfl

theorem Text.isDigit_of_mem_decimal (h : c ∈ Nat.toDigits 10 n) : c.isDigit = true :=
  Nat.isDigit_of_mem_toDigits (by decide) (by decide) h

theorem wholeOf?_ofNat (n : Nat) : wholeOf? 10 (Text.ofNat n) = some n := by
  have hvalue : ((Nat.toDigits 10 n).map fun c => c.toNat - 48).foldl (fun m d => m * 10 + d) 0 = n := by
    rw [List.foldl_map]
    calc (Nat.toDigits 10 n).foldl (fun m c => m * 10 + (c.toNat - 48)) 0
        = Nat.ofDigitChars 10 (Nat.toDigits 10 n) 0 := by
          simp only [Nat.ofDigitChars_eq_foldl, Nat.mul_comm]
          rfl
      _ = n := Nat.ofDigitChars_ten_toDigits
  rw [wholeOf?, Text.ofNat, mapM_digitOf? fun c => Text.isDigit_of_mem_decimal, Option.bind_eq_bind,
    Option.bind_some, if_neg (by simp [Nat.toDigits_ne_nil]), hvalue]

private theorem Text.ofNat_injective : Function.Injective Text.ofNat := fun m n h =>
  Option.some.inj ((wholeOf?_ofNat m).symm.trans ((congrArg _ h).trans (wholeOf?_ofNat n)))

/-- A number starts with a digit, so there is no sign to take off. -/
theorem takeSign_ofNat (n : Nat) : takeSign (Text.ofNat n) = (false, Text.ofNat n) := by
  obtain ⟨c, cs, hcs⟩ := List.exists_cons_of_ne_nil (Nat.toDigits_ne_nil (n := n) (b := 10))
  have hc : c.isDigit = true := Text.isDigit_of_mem_decimal (hcs ▸ List.mem_cons_self)
  have hlow : 48 ≤ c.toNat := (toNat_digit hc).1
  have hhigh : c.toNat ≤ 57 := (toNat_digit hc).2
  have hbyte : c.toNat.toUInt8.toNat = c.toNat := Glyph.toNat_toUInt8 (by omega)
  rw [Text.ofNat, hcs, Text.ofChars, List.flatMap_cons, Text.encodeChar_digit hc, List.singleton_append]
  generalize c.toNat.toUInt8 = b at hbyte
  unfold takeSign
  split
  · rename_i heq
    cases heq
    simp at hbyte
    omega
  · rename_i heq
    cases heq
    simp at hbyte
    omega
  · rfl

theorem Text.ofInt_eq (n : Int) :
    Text.ofInt n = (if n < 0 then [0x2D] else []) ++ Text.ofNat n.natAbs := by
  cases n with
  | ofNat n => rfl
  | negSucc n =>
    rw [if_pos (Int.negSucc_lt_zero n), Int.natAbs_negSucc]
    rfl

theorem readNumbr?_ofInt (n : Int64) : readNumbr? (Text.ofInt n.toInt) = some n := by
  have hlow : Numbr.least ≤ n.toInt := n.le_toInt
  have hhigh : n.toInt ≤ Numbr.greatest := n.toInt_le
  have hrange : Numbr.ofInt? n.toInt = some n := by
    rw [Numbr.ofInt?, if_pos ⟨hlow, hhigh⟩, Int64.ofInt_toInt]
  rw [readNumbr?, Text.ofInt_eq]
  by_cases hneg : n.toInt < 0
  · have habs : -(n.toInt.natAbs : Int) = n.toInt := by omega
    rw [if_pos hneg]
    simp only [List.singleton_append, takeSign, wholeOf?_ofNat, Option.bind_eq_bind, Option.bind_some,
      if_true, habs, hrange]
  · have habs : (n.toInt.natAbs : Int) = n.toInt := by omega
    rw [if_neg hneg, List.nil_append, takeSign_ofNat]
    simp only [wholeOf?_ofNat, Option.bind_eq_bind, Option.bind_some, Bool.false_eq_true, if_false,
      habs, hrange]

theorem Text.ofInt_injective : Function.Injective Text.ofInt := by
  have hsign (n : Int) : takeSign (Text.ofInt n) = (decide (n < 0), Text.ofNat n.natAbs) := by
    rw [ofInt_eq]
    by_cases hneg : n < 0
    · rw [if_pos hneg, decide_eq_true hneg]
      rfl
    · rw [if_neg hneg, decide_eq_false hneg]
      exact takeSign_ofNat _
  intro m n h
  have htaken := congrArg takeSign h
  rw [hsign, hsign] at htaken
  obtain ⟨hneg, habs⟩ := Prod.mk.inj htaken
  have hmag := ofNat_injective habs
  have hiff := decide_eq_decide.1 hneg
  omega

/-- The characters of a number: digits, and a minus sign. -/
theorem Text.mem_ofInt {b : UInt8} {n : Int} (h : b ∈ Text.ofInt n) :
    b = 0x2D ∨ (48 ≤ b.toNat ∧ b.toNat ≤ 57) := by
  rw [ofInt_eq, List.mem_append] at h
  obtain h | h := h
  · left
    split at h
    · exact List.mem_singleton.1 h
    · cases h
  · right
    obtain ⟨c, hc, hb⟩ := List.mem_flatMap.1 h
    have hdigit := Text.isDigit_of_mem_decimal hc
    obtain ⟨hlow, hhigh⟩ := toNat_digit hdigit
    rw [Text.encodeChar_digit hdigit, List.mem_singleton] at hb
    rw [hb, Glyph.toNat_toUInt8 (by omega)]
    exact ⟨hlow, hhigh⟩

/-- A number as characters, none of which is white space. -/
theorem Text.exists_chars_ofInt (n : Int) :
    ∃ cs, Text.ofInt n = Text.ofChars cs ∧ ∀ c ∈ cs, c = '-' ∨ c.isDigit = true := by
  refine ⟨(if n < 0 then ['-'] else []) ++ Nat.toDigits 10 n.natAbs, ?_, fun c hc => ?_⟩
  · rw [ofInt_eq, Text.ofChars_append]
    congr 1
    split <;> rfl
  · obtain hc | hc := List.mem_append.1 hc
    · left
      split at hc
      · exact List.mem_singleton.1 hc
      · cases hc
    · exact .inr (Text.isDigit_of_mem_decimal hc)

end LolToolchain
